import ReactiveMarkup.Script.Expression

/-! # Statements -/

namespace ReactiveMarkup.Script

open Reader

variable (g : Grammar)

/-- A name or pattern with its initial value. A constant and a pattern need one, unless a loop
gives it. -/
def declarator (kind : String) (inLoop : Bool) : Reader Tree := tree do
  let target ← g.pattern
  if ← eat? "=" then
    let value ← g.assignment
    return (.declarator, [target, value])
  else
    let given := inLoop && ((← atWord? "of") || (← atWord? "in"))
    if !given && (kind == "const" || target.name?.isNone) then fail
    else return (.declarator, [target, .absent])

def declarationHead (inLoop : Bool) : Reader Tree := tree do
  match (← current).word? with
  | none => fail
  | some kind =>
    advance
    let first ← declarator g kind inLoop
    let item : Reader Tree := do
      expect ","
      declarator g kind inLoop
    let rest ← many (return !(← at? ",")) item
    return (.declaration kind, first :: rest)

def declarationStatement : Reader Tree := tree do
  let d ← declarationHead g false
  endStatement
  return (d.form, d.parts)

def condition : Reader Tree := do
  expect "("
  let e ← closedExpression g
  expect ")"
  return e

def blockStatement : Reader Tree := tree do
  expect "\x7b"
  let stmts ← manyTo "\x7d" (g.statement false)
  return (.block, stmts)

def expressionStatement (start : Nat) (e : Tree) : Reader Tree := do
  endStatement
  build start .expression [e]

def expressionOrLabel : Reader Tree := do
  let start ← here
  let e ← closedExpression g
  match e.form with
  | .name _ =>
    if ← eat? ":" then
      let body ← g.statement true
      build start .labeled [e, body]
    else expressionStatement start e
  | _ => expressionStatement start e

def ifStatement : Reader Tree := tree do
  expectWord "if"
  let test ← condition g
  let a ← g.statement true
  let b ← if ← eatWord? "else" then g.statement true else pure Tree.absent
  return (.ifElse, [test, a, b])

def whileStatement : Reader Tree := tree do
  expectWord "while"
  let test ← condition g
  let body ← g.statement true
  return (.whileLoop, [test, body])

def doStatement : Reader Tree := tree do
  expectWord "do"
  let body ← g.statement true
  expectWord "while"
  let test ← condition g
  let _ ← eat? ";"
  return (.doLoop, [body, test])

def startsBinding (t : Token) : Bool :=
  match t.lexeme with
  | .word w _ => !reservedWords.contains w
  | .mark m => m == "[" || m == "\x7b"
  | _ => false

def loopOver (start : Nat) (isAwait : Bool) (target : Tree) : Reader Tree := do
  if ← eatWord? "of" then
    let source ← withIn g.assignment
    expect ")"
    let body ← g.statement true
    build start (.forOf isAwait) [target, source, body]
  else if isAwait then fail
  else
    expectWord "in"
    let source ← closedExpression g
    expect ")"
    let body ← g.statement true
    build start .forIn [target, source, body]

def loopTail (start : Nat) (init : Tree) : Reader Tree := do
  expect ";"
  let test ← if ← at? ";" then pure Tree.absent else closedExpression g
  expect ";"
  let step ← if ← at? ")" then pure Tree.absent else closedExpression g
  expect ")"
  let body ← g.statement true
  build start .forLoop [init, test, step, body]

def forStatement : Reader Tree := do
  let start ← here
  expectWord "for"
  let isAwait ← eatWord? "await"
  if isAwait && !(← read).allowAwait then fail
  expect "("
  let t ← current
  let declares ←
    if t.isWord "var" || t.isWord "const" then pure true
    else if t.isWord "let" then do
      let n ← peek
      pure (startsBinding n && !(n.isWord "of" || n.isWord "in"))
    else pure false
  if t.isMark ";" then
    if isAwait then fail else loopTail g start .absent
  else if declares then
    let d ← within ({ · with allowIn := false }) (declarationHead g true)
    if (← atWord? "of") || (← atWord? "in") then
      match d.parts with
      | [.node .declarator _ [_, value]] =>
        if value.isAbsent then loopOver g start isAwait d else fail
      | _ => fail
    else if isAwait then fail
    else loopTail g start d
  else
    let e ← within ({ · with allowIn := false }) (expression g)
    -- `async of` would read as the parameter of an arrow.
    if (← atWord? "of") && !isAwait && t.isWord "async" && e.name?.isSome then fail
    if (← atWord? "of") || (← atWord? "in") then
      match e.toTarget with
      | some target => loopOver g start isAwait target
      | none => fail
    else if isAwait then fail
    else loopTail g start e

def jumpStatement (word : String) : Reader Tree := tree do
  expectWord word
  let t ← current
  let label ← if t.word?.isSome && !t.afterNewline then bindingName else pure Tree.absent
  endStatement
  return (.jump word, [label])

def returnStatement : Reader Tree := tree do
  expectWord "return"
  if !(← read).allowReturn then fail
  let t ← current
  let bare := t.isMark ";" || t.isMark "\x7d" || t.isEnd || t.afterNewline
  let value ← if bare then pure Tree.absent else closedExpression g
  endStatement
  return (.returns, [value])

def throwStatement : Reader Tree := tree do
  expectWord "throw"
  if (← current).afterNewline then fail
  let value ← closedExpression g
  endStatement
  return (.throws, [value])

def withStatement : Reader Tree := tree do
  expectWord "with"
  let e ← condition g
  let body ← g.statement true
  return (.withObject, [e, body])

def switchCase : Reader Tree := tree do
  let test ←
    if ← eatWord? "default" then pure Tree.absent
    else do
      expectWord "case"
      closedExpression g
  expect ":"
  let done : Reader Bool := return (← at? "\x7d") || (← atWord? "case") || (← atWord? "default")
  let stmts ← many done (g.statement false)
  return (.caseOf, test :: stmts)

def switchStatement : Reader Tree := tree do
  expectWord "switch"
  let subject ← condition g
  expect "\x7b"
  let cases ← manyTo "\x7d" (switchCase g)
  return (.switchOn, subject :: cases)

def handlerClause : Reader Tree := tree do
  expectWord "catch"
  let target ←
    if ← eat? "(" then do
      let p ← g.pattern
      expect ")"
      pure p
    else pure Tree.absent
  let body ← blockStatement g
  return (.handler, [target, body])

def tryStatement : Reader Tree := tree do
  expectWord "try"
  let body ← blockStatement g
  let handler ← if ← atWord? "catch" then handlerClause g else pure Tree.absent
  let final ← if ← eatWord? "finally" then blockStatement g else pure Tree.absent
  if handler.isAbsent && final.isAbsent then fail
  return (.attempt, [body, handler, final])

def letStatement (single : Bool) : Reader Tree := do
  let n ← peek
  let asName :=
    match n.lexeme with
    | .mark m =>
      assignOps.contains m || (level n).isSome || m == "." || m == "(" || m == ";" ||
        (single && m != "[")
    | .word w _ => w == "in" || w == "instanceof" || single
    | _ => single
  if asName then expressionOrLabel g else declarationStatement g

def functionStatement (single : Bool) : Reader Tree := do
  let start ← here
  let isAsync ← eatWord? "async"
  let f ← functionFrom g start true isAsync false
  match f.form with
  | .function _ isAsync generator => if single && (isAsync || generator) then fail else return f
  | _ => fail

def statementWith (single : Bool) : Reader Tree := do
  let start ← here
  let t ← current
  match t.lexeme with
  | .mark "\x7b" => blockStatement g
  | .mark ";" => lone .empty
  | .word w false =>
    match w with
    | "if" => ifStatement g
    | "for" => forStatement g
    | "while" => whileStatement g
    | "do" => doStatement g
    | "continue" => jumpStatement "continue"
    | "break" => jumpStatement "break"
    | "return" => returnStatement g
    | "throw" => throwStatement g
    | "with" => withStatement g
    | "switch" => switchStatement g
    | "try" => tryStatement g
    | "debugger" =>
      advance
      endStatement
      build start .debugger []
    | "var" => declarationStatement g
    | "const" => if single then fail else declarationStatement g
    | "let" => letStatement g single
    | "function" => functionStatement g single
    | "class" => if single then fail else classFrom g start true false
    | "async" =>
      let n ← peek
      if n.isWord "function" && !n.afterNewline then functionStatement g single
      else expressionOrLabel g
    | _ => expressionOrLabel g
  | _ => expressionOrLabel g

end ReactiveMarkup.Script
