import ReactiveMarkup.Script.Page

/-! # Writing scripts

One statement a line, tabs for indentation, a semicolon after every statement, and parentheses only
where the reading needs them.
-/

namespace ReactiveMarkup.Script

open Text (Span)
open Print

namespace Binding

/-! How tightly a construct binds, from a whole expression to a member. -/

def lowest : Nat := 0
def comma : Nat := 1
def yields : Nat := 3
def assigns : Nat := 4
def chooses : Nat := 5
def coalesces : Nat := 6
def power : Nat := 17
def prefixed : Nat := 18
def postfixed : Nat := 19
def new : Nat := 20
def call : Nat := 21

def operator (op : String) : Nat :=
  match op with
  | "??" => coalesces
  | "||" => 7
  | "&&" => 8
  | "|" => 9
  | "^" => 10
  | "&" => 11
  | "==" | "!=" | "===" | "!==" => 12
  | "<" | ">" | "<=" | ">=" | "in" | "instanceof" => 13
  | "<<" | ">>" | ">>>" => 14
  | "+" | "-" => 15
  | "*" | "/" | "%" => 16
  | _ => power

end Binding

/-- How a tree is written: inside a construct that binds at `level`, as a statement on lines of its
own, or, for a function, as a method from its parameters on. -/
inductive Mode where
  | inline (level : Nat) (noIn noCall : Bool)
  | statement
  | method

namespace Mode

def level : Mode → Nat
  | inline n _ _ => n
  | _ => 0

def noIn : Mode → Bool
  | inline _ b _ => b
  | _ => false

def noCall : Mode → Bool
  | inline _ _ b => b
  | _ => false

def plain (n : Nat) : Mode := inline n false false

end Mode

abbrev Part := Tree × (Mode → Print Unit)

namespace Part

variable (p : Part)

def tree : Tree := p.1

def write (level : Nat) : Print Unit := p.2 (.plain level)

def writeIn (m : Mode) (level : Nat) : Print Unit :=
  p.2 (.inline level m.noIn m.noCall)

def whole : Print Unit := p.write Binding.lowest

def item : Print Unit := p.write Binding.comma

def statement (p : Part) : Print Unit := p.2 .statement

def isAbsent (p : Part) : Bool := p.1.isAbsent

/-- A part that may be absent, with what stands in front of it. -/
def after (front : String) (level : Nat) : Print Unit :=
  unless p.isAbsent do
    put front
    p.write level

end Part

def Mode.binding (m : Mode) (own : Nat) (content : Print Unit) : Print Unit :=
  wrap (own ≤ m.level) content

def listed (ps : List Part) : Print Unit := commas (ps.map Part.item)

def quoted (points : List Nat) : Print Unit := chars (quotedString points)

def braces (singleLine : Bool) (content : Print Unit) : Print Unit := do
  put "\x7b"
  if singleLine then content
  else
    newline
    deeper content
    indentation
  put "\x7d"

def blockOf (stmts : List Part) : Print Unit :=
  braces stmts.isEmpty (stmts.forM Part.statement)

def directiveQuote : List Char → String
  | [] => "\""
  | '"' :: _ => "\x27"
  | '\x27' :: _ => "\""
  | '\\' :: _ :: rest => directiveQuote rest
  | _ :: rest => directiveQuote rest

def directive (raw : String) : Print Unit := do
  indentation
  let q := directiveQuote raw.toList
  put (q ++ raw ++ q)
  endStatement

/-- Directives and statements. A string that opens the statements is no directive, which
parentheses show. -/
def bodyStatements (directives : List String) (stmts : List Part) : Print Unit := do
  directives.forM directive
  match stmts with
  | [] => pure ()
  | first :: rest =>
    let lone : Option (List Nat) :=
      match first.tree with
      | .node .expression _ [e] =>
        match e.unparen.form with
        | .string points _ => some points
        | _ => none
      | _ => none
    match lone, directives with
    | some points, [] =>
      wrap true (quoted points)
      endStatement
    | _, _ => first.statement
    rest.forM Part.statement

def functionBraces (span : Span) (directives : List String) (stmts : List Part) : Print Unit := do
  let trailing ← takeComments (span.stop - 1)
  let bare := directives.isEmpty && stmts.isEmpty
  let tight := trailing.all fun c => !c.isLine && !c.afterNewline && !c.beforeNewline
  braces (bare && tight) do
    bodyStatements directives stmts
    commentsFrom true trailing

def bodyAfterHead (p : Part) : Print Unit := do
  match p.tree.form with
  | .block =>
    space
    p.whole
    newline
  | .empty => endStatement
  | _ =>
    modify ({ · with spaceNext := true })
    p.statement

/-- A keyword with its parentheses, and the body under it. -/
def headed (opening : String) (body : Part) (content : Print Unit) : Print Unit := do
  put opening
  content
  put ")"
  bodyAfterHead body

/-- A condition without alternative at the end of a statement would take an `else` that follows. -/
def dangles : Tree → Bool
  | .node .ifElse _ [_, _, alt] => if alt.isAbsent then true else dangles alt
  | .node .forLoop _ [_, _, _, body] => dangles body
  | .node .forIn _ [_, _, body] => dangles body
  | .node (.forOf _) _ [_, _, body] => dangles body
  | .node .whileLoop _ [_, body] => dangles body
  | .node .withObject _ [_, body] => dangles body
  | .node .labeled _ [_, body] => dangles body
  | _ => false

def key (computed : Bool) (k : Part) : Print Unit := do
  if computed then put "["
  k.item
  if computed then put "]"

def isShorthand (k v : Tree) : Bool :=
  match k.form, v.unparen.form with
  | .name a, .name b => a == b && a != "__proto__"
  | _, _ => false

def isShorthandTarget (k v : Tree) : Bool :=
  match v with
  | .node .defaulted _ (t :: _) => t.name?.isSome && k.name? == t.name?
  | t => t.name?.isSome && k.name? == t.name?

def patternElements (items : List Part) : Print Unit := do
  put "["
  listed items
  if (items.getLast?.map fun p => p.tree.form) = some .hole then put ","
  put "]"

def itemList (opening closing : String) (lines : Bool) (padded : Bool) (items : List (Print Unit)) :
    Print Unit := do
  put opening
  if lines then
    deeper <| separated "," items fun p => do
      newline
      indentation
      p
    newline
    indentation
  else
    if padded && !items.isEmpty then space
    commas items
    if padded && !items.isEmpty then space
  put closing

def braced (lines padded : Bool) (items : List (Print Unit)) : Print Unit :=
  itemList "\x7b" "\x7d" lines padded items

def argumentList (span : Span) (args : List Part) : Print Unit := do
  put "("
  let closing := span.stop - 1
  let atClose ← hasComments closing
  let inside ← args.anyM fun a => hasComments a.tree.start
  if atClose || inside then
    deeper do
      separated "," args fun a => do
        unless ← argumentComments a.tree.start do newline
        indentation
        a.item
      let placed ← if atClose then argumentComments closing else pure false
      unless placed do newline
    indentation
  else listed args
  put ")"

def functionHead (isAsync generator : Bool) : Print Unit := do
  wordGap
  if isAsync then put "async "
  put "function"
  if generator then put "* "

def importSpecifiers (specifiers : List Part) : Print Unit := do
  let isNamed (p : Part) : Bool := p.tree.form = .importName
  let plain := specifiers.filter fun p => !isNamed p
  let named := specifiers.filter isNamed
  let groups := plain.map Part.item ++
    (if named.isEmpty && !plain.isEmpty then []
      else if named.isEmpty then [put "\x7b\x7d"]
      else [braced false true (named.map Part.item)])
  space
  commas groups
  put " from "

def numberText (v : Number.Binary) : Print Unit :=
  match v with
  | .nan => word "NaN"
  | .infinite _ => word "Infinity"
  | .finite _ mantissa e => do
    wordGap
    let cs := shortNumber mantissa e
    chars cs
    if !cs.any fun c => c == '.' || c == 'e' || c == 'x' then
      modify fun p => { p with numberEnd := some p.size }

def templateText : List String → List Part → Print Unit
  | [], _ => pure ()
  | [piece], _ => chars (protectClose piece.toList)
  | piece :: pieces, e :: es => do
    chars (protectClose piece.toList)
    put "$\x7b"
    e.whole
    put "\x7d"
    templateText pieces es
  | piece :: pieces, [] => do
    chars (protectClose piece.toList)
    templateText pieces []

def operandLevels (op : String) (l r : Tree) : Nat × Nat :=
  let own := Binding.operator op
  let isLogical (t : Tree) : Bool := t.unparen.form = .binary "||" || t.unparen.form = .binary "&&"
  let isPrefixed (t : Tree) : Bool :=
    match t.unparen.form with
    | .unary _ | .await => true
    | _ => false
  if op == "**" then (if isPrefixed l then Binding.call else own, own - 1)
  else if op == "??" then
    (if isLogical l then Binding.prefixed else own - 1, if isLogical r then Binding.prefixed else own)
  else (own - 1, own)

def writeBinary (op : String) (l r : Part) (m : Mode) : Print Unit := do
  let (left, right) := operandLevels op l.tree r.tree
  let wrapped := Binding.operator op ≤ m.level || (op == "in" && m.noIn)
  let inner : Mode := .inline m.level (m.noIn && !wrapped) m.noCall
  wrap wrapped do
    l.writeIn inner left
    space
    put op
    modify fun p => { p with operatorEnd := some (op, p.size) }
    space
    r.writeIn inner right

def writeProperty (role : Role) (computed shorthand : Bool) (k v : Part) : Print Unit := do
  match role with
  | .value =>
    let short := isShorthand k.tree v.tree || isShorthandTarget k.tree v.tree && !computed ||
      (shorthand && k.tree.name? == some "__proto__")
    unless short do
      key computed k
      put ": "
    v.item
  | _ =>
    let (isAsync, generator) :=
      match v.tree.form with
      | .function _ a g => (a, g)
      | _ => (false, false)
    if role = .getter then put "get "
    if role = .setter then put "set "
    if isAsync then put "async "
    if generator then put "*"
    key computed k
    v.2 .method

def writeMember (role : Role) (isStatic computed accessor : Bool) (k v : Part) : Print Unit := do
  if isStatic then put "static "
  if accessor then put "accessor "
  match role with
  | .value =>
    key computed k
    v.after " = " Binding.comma
    endStatement
  | role =>
    writeProperty role computed false k v
    newline

/-- A function or class that is no declaration cannot start a statement. -/
def asExpression (undeclared : Bool) (content : Print Unit) : Print Unit := do
  let p ← get
  wrap (undeclared && (p.statementStart = some p.size || p.defaultStart = some p.size)) content

def writeFunction (declared isAsync generator : Bool) (name ps body : Part) (m : Mode) :
    Print Unit := do
  match m with
  | .method =>
    ps.whole
    space
    body.whole
  | _ =>
    asExpression (!declared) do
      functionHead isAsync generator
      unless name.isAbsent do
        wordGap
        name.whole
      ps.whole
      space
      body.whole

def writeClass (declared : Bool) (name parent : Part) (members : List Part) : Print Unit := do
  asExpression (!declared) do
    word "class"
    name.after " " Binding.lowest
    parent.after " extends " Binding.postfixed
    space
    braces members.isEmpty <| members.forM fun e => do
      leadingComments e.tree.start
      indentation
      e.whole

def writeExpression (form : Form) (span : Span) (parts : List Part) (m : Mode) : Print Unit := do
  let p ← get
  let atStart := p.statementStart = some p.size || p.arrowStart = some p.size
  match form, parts with
  | .name w, _ | .constant w, _ => word w
  | .privateName n, _ => put ("#" ++ n)
  | .number v, _ => numberText v
  | .bigint t, _ => word (t ++ "n")
  | .string points _, _ => quoted points
  | .regex pattern flags, _ =>
    let joins := (← last?) == some '/' ||
      ((← last?) == some '<' && (pattern.toList.take 6).map Char.toLower == "script".toList)
    if joins then space
    put "/"
    chars (protectClose pattern.toList)
    put "/"
    chars (patternFlags.filter flags.toList.contains)
    modify fun p => { p with patternEnd := some p.size }
  | .template pieces, es =>
    put backquote.toString
    templateText pieces es
    put backquote.toString
  | .metaProperty w property, _ => word (w ++ "." ++ property)
  | .array, items =>
    let last := items.length - 1
    let one (q : Part × Nat) : Print Unit :=
      if q.1.tree.form = .hole then (if q.2 = last then put "," else pure ())
      else q.1.item
    itemList "[" "]" (2 < items.length) false (items.zipIdx.map one)
  | .hole, _ => pure ()
  | .spread _, [e] | .rest, [e] =>
    put "..."
    e.item
  | .object, items =>
    wrap atStart (braced (1 < items.length) true
      (items.map Part.item))
  | .property role computed shorthand, [k, v] => writeProperty role computed shorthand k v
  | .paren, [e] => e.2 m
  | .function declared isAsync generator, [name, ps, body] =>
    writeFunction declared isAsync generator name ps body m
  | .params, ps => wrap true (listed ps)
  | .body directives, stmts => functionBraces span directives stmts
  | .arrow isAsync concise, [ps, body] =>
    m.binding Binding.assigns do
      if isAsync then word "async "
      ps.whole
      put " => "
      if concise then
        modify fun p => { p with arrowStart := some p.size }
        body.writeIn (.inline 0 m.noIn false) Binding.comma
      else body.whole
  | .classOf declared, name :: parent :: members => writeClass declared name parent members
  | .classMember role isStatic computed accessor, [k, v] =>
    writeMember role isStatic computed accessor k v
  | .staticBlock, stmts =>
    put "static "
    blockOf stmts
    newline
  | .unary op, [e] =>
    m.binding Binding.prefixed do
      if unaryWords.contains op then
        word op
        space
      else operator op
      e.writeIn m Binding.power
  | .update op true, [e] =>
    m.binding Binding.prefixed do
      operator op
      e.writeIn m Binding.prefixed
  | .update op false, [e] =>
    m.binding Binding.postfixed do
      e.writeIn m Binding.postfixed
      put op
  | .binary op, [l, r] => writeBinary op l r m
  | .conditional, [test, a, b] =>
    m.binding Binding.chooses do
      test.writeIn m Binding.chooses
      put " ? "
      a.write Binding.yields
      put " : "
      b.writeIn m Binding.yields
  | .assign op, [target, value] =>
    let destructs := atStart && target.tree.form = .objectTarget
    wrap (destructs || Binding.assigns ≤ m.level) do
      target.writeIn m Binding.comma
      put (" " ++ op ++ " ")
      value.writeIn m Binding.comma
  | .sequence, es =>
    m.binding Binding.comma (commas (es.map (·.writeIn (.inline 0 m.noIn false) Binding.lowest)))
  | .call optional, callee :: args =>
    wrap (Binding.new ≤ m.level || m.noCall) do
      callee.write Binding.postfixed
      if optional then put "?."
      argumentList span args
  | .new, callee :: args =>
    m.binding Binding.new do
      word "new "
      callee.2 (.inline Binding.new false true)
      argumentList span args
  | .dot optional, [e, name] =>
    e.2 (.inline Binding.postfixed false m.noCall)
    if optional then put "?"
    else
      let p ← get
      if p.numberEnd = some p.size then space
    put "."
    match name.tree.form with
    | .privateName n => put ("#" ++ n)
    | .name n => put n
    | _ => pure ()
  | .index optional, [e, k] =>
    e.2 (.inline Binding.postfixed false m.noCall)
    if optional then put "?."
    put "["
    k.whole
    put "]"
  | .chain, [e] => m.binding Binding.postfixed (e.2 m)
  | .tagged, [tag, quasi] =>
    tag.write Binding.postfixed
    quasi.whole
  | .importCall, args =>
    wrap (Binding.new ≤ m.level || m.noCall) do
      word "import"
      wrap true (listed args)
  | .yield delegate, [e] =>
    m.binding Binding.yields do
      word "yield"
      if delegate then put "*"
      unless e.isAbsent do
        space
        e.writeIn m Binding.yields
  | .await, [e] =>
    m.binding Binding.prefixed do
      word "await "
      e.writeIn m Binding.power
  | .arrayTarget, items | .arrayPattern, items => patternElements items
  | .objectTarget, items => braced false false (items.map Part.item)
  | .objectPattern, items => braced false true (items.map Part.item)
  | .defaulted, [target, value] =>
    target.item
    put " = "
    value.item
  | .declaration kind, ds =>
    put (kind ++ " ")
    commas (ds.map (·.writeIn m Binding.comma))
  | .declarator, [target, value] =>
    target.item
    unless value.isAbsent do
      put " = "
      value.writeIn m Binding.comma
  | .block, stmts => blockOf stmts
  | .importDefault, [name] => name.item
  | .importAll, [name] =>
    put "* as "
    name.item
  | .importName, [imported, own] =>
    unless imported.tree.name? == own.tree.name? do
      imported.item
      put " as "
    own.item
  | .exportName, [own, exported] =>
    own.item
    unless own.tree.form = exported.tree.form do
      put " as "
      exported.item
  | _, _ => pure ()

/-- A condition from its keyword on; an alternative that is a condition itself follows on the same
line. -/
def writeIf (test a b : Part) : Print Unit := do
  put "if ("
  test.whole
  put ")"
  let hasElse := !b.isAbsent
  if a.tree.form = .block || dangles a.tree then
    space
    if a.tree.form = .block then a.whole else braces false a.statement
    if hasElse then space else newline
  else
    bodyAfterHead a
    if hasElse then indentation
  if hasElse then
    put "else"
    if b.tree.form = .ifElse then
      space
      b.whole
    else bodyAfterHead b

def writeCase (test : Part) (stmts : List Part) : Print Unit := do
  indentation
  if test.isAbsent then put "default"
  else
    put "case "
    test.whole
  put ":"
  match stmts with
  | [s] => bodyAfterHead s
  | stmts =>
    newline
    deeper (stmts.forM Part.statement)

def writeTry (body handler final : Part) : Print Unit := do
  put "try "
  body.whole
  handler.after " " Binding.lowest
  final.after " finally " Binding.lowest

def loopPart (p : Part) : Print Unit := do
  put ";"
  p.after " " Binding.lowest

def writeStatement (form : Form) (parts : List Part) : Print Unit := do
  match form, parts with
  | .empty, _ => endStatement
  | .expression, [e] =>
    modify fun p => { p with statementStart := some p.size }
    e.whole
    endStatement
  | .ifElse, [test, a, b] => writeIf test a b
  | .forLoop, [init, test, step, body] =>
    headed "for (" body do
      unless init.isAbsent do init.2 (.inline Binding.lowest true false)
      loopPart test
      loopPart step
  | .forIn, [target, source, body] =>
    headed "for (" body do
      target.whole
      put " in "
      source.whole
  | .forOf isAwait, [target, source, body] =>
    headed (if isAwait then "for await (" else "for (") body do
      target.whole
      put " of "
      source.item
  | .whileLoop, [test, body] => headed "while (" body test.whole
  | .doLoop, [body, test] =>
    put "do"
    if body.tree.form = .block then
      space
      body.whole
      space
    else
      newline
      deeper body.statement
      indentation
    put "while ("
    test.whole
    put ")"
    endStatement
  | .jump w, [label] =>
    put w
    label.after " " Binding.lowest
    endStatement
  | .returns, [e] =>
    put "return"
    e.after " " Binding.lowest
    endStatement
  | .throws, [e] =>
    put "throw "
    e.whole
    endStatement
  | .withObject, [e, body] => headed "with (" body e.whole
  | .switchOn, subject :: cases =>
    put "switch ("
    subject.whole
    put ") "
    braces cases.isEmpty (cases.forM Part.whole)
    newline
  | .caseOf, test :: stmts => writeCase test stmts
  | .labeled, [label, body] =>
    label.whole
    put ":"
    bodyAfterHead body
  | .attempt, [body, handler, final] =>
    writeTry body handler final
    newline
  | .handler, [target, body] =>
    put "catch "
    unless target.isAbsent do
      wrap true target.whole
      space
    body.whole
  | .debugger, _ =>
    put "debugger"
    endStatement
  | .importFrom source listed attributes, specifiers =>
    put "import"
    if listed then importSpecifiers specifiers else space
    quoted source
    unless attributes.isEmpty do
      put " with "
      braced false true (attributes.map fun (k, v) => do
        put (k ++ ": ")
        quoted v)
    endStatement
  | .exportDeclaration, [d] =>
    put "export "
    d.whole
    match d.tree.form with
    | .declaration _ => endStatement
    | _ => newline
  | .exportNames source, names =>
    put "export "
    braced false true (names.map Part.item)
    match source with
    | some points =>
      put " from "
      quoted points
    | none => pure ()
    endStatement
  | .exportDefault, [e] =>
    put "export default "
    match e.tree.form with
    | .function true _ _ | .classOf true =>
      e.whole
      newline
    | _ =>
      modify fun p => { p with defaultStart := some p.size }
      e.item
      endStatement
  | .exportAll source, [name] =>
    put "export *"
    name.after " as " Binding.comma
    put " from "
    quoted source
    endStatement
  | _, _ => pure ()

def Form.isStatement : Form → Bool
  | .empty | .expression | .ifElse | .forLoop | .forIn | .forOf _ | .whileLoop | .doLoop | .jump _
  | .returns | .throws | .withObject | .switchOn | .caseOf | .labeled | .attempt | .handler
  | .debugger | .importFrom .. | .exportDeclaration | .exportNames _ | .exportDefault
  | .exportAll _ => true
  | _ => false

def writeForm (form : Form) (span : Span) (parts : List Part) (m : Mode) : Print Unit := do
  match m with
  | .statement =>
    leadingComments span.start
    indentation
    if form.isStatement then writeStatement form parts
    else
      writeExpression form span parts (.plain Binding.lowest)
      match form with
      | .declaration _ => endStatement
      | _ => newline
  | m => if form.isStatement then writeStatement form parts else writeExpression form span parts m

def writeProgram (p : Program) : Print Unit := do
  bodyStatements p.directives (Tree.buildAll writeForm p.body)
  leadingComments p.size

def Program.print (p : Program) : String :=
  let ((), page) := (writeProgram p).run { comments := p.comments.reverse }
  String.ofList page.written.reverse

end ReactiveMarkup.Script
