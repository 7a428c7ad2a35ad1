import ReactiveMarkup.Script.Function
import ReactiveMarkup.Script.Target

/-! # Expressions -/

namespace ReactiveMarkup.Script

open Reader

variable (g : Grammar)

def expression : Reader Tree := do
  let start ← here
  let first ← g.assignment
  if ← at? "," then
    let item : Reader Tree := do
      expect ","
      g.assignment
    let rest ← many (return !(← at? ",")) item
    build start .sequence (first :: rest)
  else return first

def closedExpression : Reader Tree :=
  withIn (expression g)

def templateRest (g : Grammar) (tagged : Bool) : Nat → Reader (List String × List Tree)
  | 0 => fail
  | fuel + 1 => do
    let e ← closedExpression g
    unless ← at? "\x7d" do fail
    reread Token.asTemplate
    match (← current).lexeme with
    | .template raw last valid =>
      unless valid || tagged do fail
      advance
      if last then return ([raw], [e])
      else
        let (pieces, es) ← templateRest g tagged fuel
        return (raw :: pieces, e :: es)
    | _ => fail

/-- A template. Only a tagged one may hold escapes without a meaning. -/
def template (tagged : Bool) : Reader Tree := tree do
  match (← current).lexeme with
  | .template raw last valid =>
    unless valid || tagged do fail
    let bound := (← current).rest.length + 1
    advance
    if last then return (.template [raw], [])
    else
      let (pieces, es) ← templateRest g tagged bound
      return (.template (raw :: pieces), es)
  | _ => fail

def spreadOr (other : Reader Tree) : Reader Tree := do
  let start ← here
  if ← eat? "..." then
    let e ← g.assignment
    build start (.spread !(← at? ",")) [e]
  else other

def arguments : Reader (List Tree) := do
  expect "("
  withIn (commaTo ")" (spreadOr g g.assignment))

def arrayLiteral : Reader Tree := tree do
  expect "["
  let item : Reader Tree := do
    if ← at? "," then build (← here) .hole [] else spreadOr g g.assignment
  let elements ← withIn (commaTo "]" item)
  return (.array, elements)

def objectProperty : Reader Tree := spreadOr g do
  let start ← here
  let m ← modifiers
  let plain := m.role = .value && !m.isAsync && !m.generator
  let word := (← current).word?
  let (key, computed) ← propertyKey g
  if let .privateName _ := key.form then fail
  if ← at? "(" then
    let (role, f) ← methodAfter g m
    build start (.property role computed false) [key, f]
  else if !plain then fail
  else if ← eat? ":" then
    let value ← g.assignment
    build start (.property .value computed false) [key, value]
  else shorthand g start word key

def objectLiteral : Reader Tree := tree do
  expect "\x7b"
  let properties ← withIn (commaTo "\x7d" (objectProperty g))
  return (.object, properties)

def importExpression : Reader Tree := tree do
  expectWord "import"
  if ← eat? "." then
    expectWord "meta"
    return (.metaProperty "import" "meta", [])
  else
    expect "("
    let args ← withIn (commaTo ")" g.assignment)
    if args.length == 1 || args.length == 2 then return (.importCall, args) else fail

def newExpression : Reader Tree := tree do
  expectWord "new"
  if ← eat? "." then
    expectWord "target"
    return (.metaProperty "new" "target", [])
  else
    let callee ← g.member
    if callee.form = .importCall then fail
    if ← at? "?." then fail
    let args ← if ← at? "(" then arguments g else pure []
    return (.new, callee :: args)

def constants : List String := ["this", "null", "true", "false"]

def primary : Reader Tree := do
  let start ← here
  let t ← current
  match t.lexeme with
  | .word w escaped =>
    if escaped then bindingName
    else if constants.contains w then lone (.constant w)
    else if w == "super" then
      advance
      if (← at? ".") || (← at? "[") || (← at? "(") then build start (.constant w) [] else fail
    else if w == "function" then functionFrom g start false false true
    else if w == "class" then classFrom g start false true
    else if w == "new" then newExpression g
    else if w == "import" then importExpression g
    else if w == "async" then
      let n ← peek
      if n.isWord "function" && !n.afterNewline then
        advance
        functionFrom g start false true true
      else bindingName
    else bindingName
  | .number v => lone (.number v)
  | .bigint text => lone (.bigint text)
  | .string points raw => lone (.string points raw)
  | .privateName text =>
    advance
    if ← atWord? "in" then build start (.privateName text) [] else fail
  | .template .. => template g false
  | .mark m =>
    if m == "/" || m == "/=" then
      reread Token.asRegex
      match (← current).lexeme with
      | .regex pattern flags => lone (.regex pattern flags)
      | _ => fail
    else if m == "[" then arrayLiteral g
    else if m == "\x7b" then objectLiteral g
    else if m == "(" then
      advance
      let e ← closedExpression g
      expect ")"
      build start .paren [e]
    else fail
  | _ => fail

def memberName : Reader Tree := do
  match (← current).lexeme with
  | .privateName text => lone (.privateName text)
  | _ => anyName

/-- A call, or a member after its dot. -/
def link (start : Nat) (e : Tree) (optional : Bool) : Reader Tree := do
  if ← at? "(" then build start (.call optional) (e :: (← arguments g))
  else if ← eat? "[" then
    let key ← closedExpression g
    expect "]"
    build start (.index optional) [e, key]
  else
    let name ← memberName
    build start (.dot optional) [e, name]

/-- The members, and where `calls` allows it the calls, that follow an expression. The result tells
whether a link was optional. -/
def links (g : Grammar) (calls : Bool) (start : Nat) : Nat → Tree → Bool → Reader (Tree × Bool)
  | 0, _, _ => fail
  | fuel + 1, e, chained => do
    let t ← current
    match t.lexeme with
    | .template .. =>
      if chained then fail
      else
        let quasi ← template g true
        links g calls start fuel (← build start .tagged [e, quasi]) false
    | .mark "." =>
      advance
      let name ← memberName
      links g calls start fuel (← build start (.dot false) [e, name]) chained
    | .mark "[" => links g calls start fuel (← link g start e false) chained
    | .mark "(" =>
      if calls then links g calls start fuel (← link g start e false) chained
      else return (e, chained)
    | .mark "?." =>
      if calls then
        advance
        links g calls start fuel (← link g start e true) true
      else return (e, chained)
    | _ => return (e, chained)

def leftHandSide : Reader Tree := do
  let start ← here
  let bound := (← current).rest.length + 2
  let e ← primary g
  let (e, chained) ← links g true start bound e false
  if chained then build start .chain [e] else return e

def memberExpression : Reader Tree := do
  let start ← here
  let bound := (← current).rest.length + 2
  let e ← primary g
  return (← links g false start bound e false).1

def updateOps : List String := ["++", "--"]

def updateExpression : Reader Tree := do
  let start ← here
  match (← current).mark? with
  | some m =>
    if updateOps.contains m then
      advance
      let e ← g.unary
      if e.isSimpleTarget then return (← build start (.update m true) [e]) else fail
  | none => pure ()
  let e ← leftHandSide g
  let t ← current
  match t.mark? with
  | some m =>
    if updateOps.contains m && !t.afterNewline then
      if e.isSimpleTarget then
        advance
        build start (.update m false) [e]
      else fail
    else return e
  | none => return e

def unaryMarks : List String := ["+", "-", "~", "!"]

def unaryWords : List String := ["delete", "void", "typeof"]

def startsOperand (t : Token) : Bool :=
  match t.lexeme with
  | .word w _ => w != "of" && w != "in" && w != "instanceof"
  | .number _ | .string .. | .bigint _ | .privateName _ | .template .. => true
  | .mark m => m == "!" || m == "\x7b" || m == "@"
  | _ => false

def operand (form : Form) : Reader Tree := tree do
  advance
  let e ← g.unary
  if ← at? "**" then fail
  return (form, [e])

/-- An operand after the operators before it. Such an operand is no base of a power. -/
def unaryExpression : Reader Tree := do
  let t ← current
  let op? : Option String :=
    match t.lexeme with
    | .mark m => if unaryMarks.contains m then some m else none
    | .word w escaped => if !escaped && unaryWords.contains w then some w else none
    | _ => none
  match op? with
  | some op => operand g (.unary op)
  | none =>
    if t.isWord "await" then
      let n ← peek
      let ctx ← read
      if n.isMark "=>" then updateExpression g
      else if ctx.allowAwait then operand g .await
      else if startsOperand n && !n.afterNewline then fail
      else updateExpression g
    else updateExpression g

def level (t : Token) : Option (String × Nat) :=
  match t.lexeme with
  | .mark m =>
    let found : Option Nat :=
      match m with
      | "??" => some 1
      | "||" => some 2
      | "&&" => some 3
      | "|" => some 4
      | "^" => some 5
      | "&" => some 6
      | "==" | "!=" | "===" | "!==" => some 7
      | "<" | ">" | "<=" | ">=" => some 8
      | "<<" | ">>" | ">>>" => some 9
      | "+" | "-" => some 10
      | "*" | "/" | "%" => some 11
      | "**" => some 12
      | _ => none
    found.map fun n => (m, n)
  | .word w escaped =>
    if !escaped && (w == "in" || w == "instanceof") then some (w, 8) else none
  | _ => none

/-- `??` does not mix with `||` and `&&` unless parentheses divide them. -/
def mixes (op : String) (l r : Tree) : Bool :=
  let isLogical (t : Tree) : Bool := t.form = .binary "||" || t.form = .binary "&&"
  let isDefault (t : Tree) : Bool := t.form = .binary "??"
  (op == "??" && (isLogical l || isLogical r)) ||
    ((op == "||" || op == "&&") && (isDefault l || isDefault r))

/-- Operators that bind tighter than `bound`, applied to what has been read. A private name stands
only before `in`. -/
def operatorTail (g : Grammar) (start bound : Nat) : Nat → Tree → Reader Tree
  | 0, _ => fail
  | fuel + 1, l => do
    match level (← current) with
    | none => return l
    | some (op, n) =>
      let ctx ← read
      let stops := if op == "**" then n < bound else n ≤ bound
      if stops || (op == "in" && !ctx.allowIn) then return l
      else
        advance
        let r ← g.operators (if op == "**" then n - 1 else n)
        if mixes op l r then fail
        match r.form with
        | .privateName _ => fail
        | _ => pure ()
        operatorTail g start bound fuel (← build start (.binary op) [l, r])

def operatorExpression (bound : Nat) : Reader Tree := do
  let start ← here
  let fuel := (← current).rest.length + 2
  let l ← unaryExpression g
  match l.form with
  | .privateName _ => if 8 ≤ bound then fail
  | _ => pure ()
  operatorTail g start bound fuel l

def assignOps : List String :=
  ["=", "+=", "-=", "*=", "/=", "%=", "**=", "<<=", ">>=", ">>>=", "&=", "|=", "^=", "&&=", "||=",
    "??="]

def arrowTail (start : Nat) (isAsync : Bool) (ps : Tree) : Reader Tree := do
  if (← current).afterNewline then fail
  expect "=>"
  let inner (ctx : Context) : Context := { ctx with allowAwait := isAsync, allowYield := false }
  if ← at? "\x7b" then
    let body ← within inner (functionBody g)
    build start (.arrow isAsync false) [ps, body]
  else
    let body ← within inner g.assignment
    build start (.arrow isAsync true) [ps, body]

def loneParameter : Reader Tree := tree do
  let name ← bindingName
  return (.params, [name])

def arrowHead : Reader (Bool × Tree) := do
  let t ← current
  if t.isMark "(" then
    let ps ← parameters g
    unless ← at? "=>" do fail
    return (false, ps)
  else
    let n ← peek
    if n.isMark "=>" then return (false, ← loneParameter)
    else if t.isWord "async" && !n.afterNewline then
      advance
      let inner (ctx : Context) : Context := { ctx with allowAwait := true }
      let ps ← if ← at? "(" then within inner (parameters g) else within inner loneParameter
      unless ← at? "=>" do fail
      return (true, ps)
    else fail

def startsArrow (t : Token) : Bool :=
  match t.lexeme with
  | .word .. => true
  | .mark m => m == "("
  | _ => false

def yieldExpression : Reader Tree := tree do
  advance
  let t ← current
  if t.afterNewline then return (.yield false, [.absent])
  else
    let delegate ← eat? "*"
    let t ← current
    let bare := t.isEnd || t.isWord "in" ||
      [";", "\x7d", ")", "]", ":", ","].any t.isMark
    if bare && !delegate then return (.yield false, [.absent])
    else
      let e ← g.assignment
      return (.yield delegate, [e])

def assignmentTail (start : Nat) (l : Tree) : Reader Tree := do
  match (← current).mark? with
  | some "?" =>
    advance
    let a ← withIn g.assignment
    expect ":"
    let b ← g.assignment
    build start .conditional [l, a, b]
  | some m =>
    if assignOps.contains m then
      let target := if m == "=" then l.toTarget else if l.isSimpleTarget then some l else none
      match target with
      | some target =>
        advance
        let value ← g.assignment
        build start (.assign m) [target, value]
      | none => fail
    else return l
  | none => return l

def assignmentExpression : Reader Tree := do
  let start ← here
  let t ← current
  if t.isWord "yield" then
    let ctx ← read
    if ctx.allowYield then return ← yieldExpression g
  let head ← if startsArrow t then attempt (arrowHead g) else pure none
  match head with
  | some (isAsync, ps) => arrowTail g start isAsync ps
  | none =>
    let l ← operatorExpression g 0
    assignmentTail g start l

end ReactiveMarkup.Script
