import ReactiveMarkup.Script.Statement

/-! # Modules -/

namespace ReactiveMarkup.Script

open Reader

def foreignName : Reader Tree := do
  match (← current).lexeme with
  | .string points raw => lone (.string points raw)
  | _ => anyName

def importSpecifier : Reader Tree := tree do
  let ctx ← read
  let imported ← foreignName
  if ← eatWord? "as" then
    let local_ ← bindingName
    return (.importName, [imported, local_])
  else
    match imported.name? with
    | some w => if fitsName ctx w then return (.importName, [imported, imported]) else fail
    | none => fail

def importAttributes : Reader (List (String × List Nat)) := do
  if ← eatWord? "with" then
    expect "\x7b"
    let item : Reader (String × List Nat) := do
      let key ← foreignName
      expect ":"
      let value ← stringPoints
      match key.form with
      | .name n => return (n, value)
      | .string _ raw => return (raw, value)
      | _ => fail
    commaTo "\x7d" item
  else return []

def importDeclaration : Reader Tree := tree do
  expectWord "import"
  match (← current).lexeme with
  | .string .. =>
    let source ← stringPoints
    let attributes ← importAttributes
    endStatement
    return (.importFrom source false attributes, [])
  | _ =>
    let defaults ← do
      if (← current).word?.isSome then
        let at_ ← here
        let name ← bindingName
        let d ← build at_ .importDefault [name]
        pure [d]
      else pure []
    let more ← if defaults.isEmpty then pure true else eat? ","
    let others ←
      if !more then pure []
      else if ← at? "*" then do
        let at_ ← here
        advance
        expectWord "as"
        let name ← bindingName
        pure [← build at_ .importAll [name]]
      else do
        expect "\x7b"
        commaTo "\x7d" importSpecifier
    expectWord "from"
    let source ← stringPoints
    let attributes ← importAttributes
    endStatement
    return (.importFrom source true attributes, defaults ++ others)

def exportSpecifier : Reader Tree := tree do
  let own ← foreignName
  let exported ← if ← eatWord? "as" then foreignName else pure own
  return (.exportName, [own, exported])

def fitsExport (t : Tree) : Bool :=
  match t with
  | .node .exportName _ (own :: _) => own.name?.any fun w => !reservedWords.contains w
  | _ => false

def exportDefaultValue (g : Grammar) (start : Nat) : Reader Tree := do
  let at_ ← here
  let t ← current
  if t.isWord "function" then
    build start .exportDefault [← functionFrom g at_ true false true]
  else if t.isWord "class" then
    build start .exportDefault [← classFrom g at_ true true]
  else
    let n ← peek
    if t.isWord "async" && n.isWord "function" && !n.afterNewline then
      advance
      build start .exportDefault [← functionFrom g at_ true true true]
    else
      let e ← g.assignment
      endStatement
      build start .exportDefault [e]

def exportDeclaration (g : Grammar) : Reader Tree := do
  let start ← here
  expectWord "export"
  let t ← current
  if ← eatWord? "default" then exportDefaultValue g start
  else if ← eat? "*" then
    let name ← if ← eatWord? "as" then foreignName else pure Tree.absent
    expectWord "from"
    let source ← stringPoints
    let _ ← importAttributes
    endStatement
    build start (.exportAll source) [name]
  else if ← eat? "\x7b" then
    let names ← commaTo "\x7d" exportSpecifier
    if ← eatWord? "from" then
      let source ← stringPoints
      let _ ← importAttributes
      endStatement
      build start (.exportNames (some source)) names
    else
      if !names.all fitsExport then fail
      endStatement
      build start (.exportNames none) names
  else if ["var", "let", "const"].any t.isWord then
    build start .exportDeclaration [← declarationStatement g]
  else if t.isWord "function" || t.isWord "async" then
    build start .exportDeclaration [← functionStatement g false]
  else if t.isWord "class" then
    build start .exportDeclaration [← classFrom g t.start true false]
  else fail

def moduleItem (g : Grammar) (single : Bool) : Reader Tree := do
  let t ← current
  if t.isWord "import" then
    let n ← peek
    if n.isMark "(" || n.isMark "." then expressionOrLabel g else importDeclaration
  else if t.isWord "export" then exportDeclaration g
  else statementWith g single

def grammar : (depth : Nat) → Grammar
  | 0 =>
    { assignment := fail
      unary := fail
      operators := fun _ => fail
      member := fail
      leftHandSide := fail
      pattern := fail
      statement := fun _ => fail }
  | depth + 1 =>
    let g := grammar depth
    { assignment := assignmentExpression g
      unary := unaryExpression g
      operators := operatorExpression g
      member := memberExpression g
      leftHandSide := leftHandSide g
      pattern := bindingPattern g
      statement := moduleItem g }

mutual

def boundNames : Tree → List String
  | .node (.name n) _ _ => [n]
  | .node .arrayPattern _ ps => boundNamesOf ps
  | .node .objectPattern _ ps => boundNamesOf ps
  | .node (.property ..) _ [_, value] => boundNames value
  | .node .defaulted _ [target, _] => boundNames target
  | .node .rest _ [target] => boundNames target
  | .node .declarator _ [target, _] => boundNames target
  | .node (.declaration _) _ ds => boundNamesOf ds
  | .node (.function ..) _ (name :: _) => boundNames name
  | .node (.classOf _) _ (name :: _) => boundNames name
  | _ => []

def boundNamesOf : List Tree → List String
  | [] => []
  | t :: ts => boundNames t ++ boundNamesOf ts

end

def exportedNames : Tree → List String
  | .node .exportDeclaration _ [d] => boundNames d
  | .node .exportDefault _ _ => ["default"]
  | .node (.exportNames _) _ names =>
    names.filterMap fun
      | .node .exportName _ [_, exported] =>
        match exported.form with
        | .name n => some n
        | .string _ raw => some raw
        | _ => none
      | _ => none
  | .node (.exportAll _) _ [name] => boundNames name
  | _ => []

/-- A script and the comments in it, each list with the start of the token that it leads up to. -/
structure Program where
  directives : List String
  body : List Tree
  size : Nat
  comments : List (Nat × List Comment)

def readWith {α : Type} (source : String) (p : Grammar → Reader α) : Option (α × Position) := do
  let t ← firstToken source
  let first := if t.comments.isEmpty then [] else [(t.start, t.comments)]
  p (grammar (source.length + 2)) { allowAwait := true }
    { token := t, lastStop := 0, comments := first }

/-- The script that a source spells, if it is one. A name is exported at most once. -/
def parse (source : String) : Option Program := do
  let items (g : Grammar) : Reader (List Tree) := many (return (← current).isEnd) (g.statement false)
  let (stmts, pos) ← readWith source items
  if Tree.anyOf Tree.hasStrayDefault stmts then none
  else
    let names := stmts.flatMap exportedNames
    if names.eraseDups.length = names.length then
      let (directives, body) := splitDirectives stmts
      some { directives, body, size := source.utf8ByteSize, comments := pos.comments }
    else none

def parseExpression (source : String) : Option Tree := do
  let (e, _) ← readWith source closedExpression
  if e.hasStrayDefault then none else some e

end ReactiveMarkup.Script
