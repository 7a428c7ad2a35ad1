import ReactiveMarkup.Script.Pattern

/-! # Functions and classes -/

namespace ReactiveMarkup.Script

open Reader

variable (g : Grammar)

def splitDirectives : List Tree → List String × List Tree
  | .node .expression _ [.node (.string _ raw) _ _] :: rest =>
    let (ds, stmts) := splitDirectives rest
    (raw :: ds, stmts)
  | stmts => ([], stmts)

def bodyContext (isAsync generator : Bool) : Context :=
  { allowAwait := isAsync, allowYield := generator, allowReturn := true }

def functionBody : Reader Tree := tree do
  expect "\x7b"
  let stmts ← within ({ · with allowIn := true, allowReturn := true })
    (manyTo "\x7d" (g.statement false))
  let (ds, stmts) := splitDirectives stmts
  return (.body ds, stmts)

def functionTail (isAsync generator : Bool) : Reader (Tree × Tree) :=
  within (fun _ => bodyContext isAsync generator) do
    let ps ← parameters g
    let body ← functionBody g
    return (ps, body)

/-- A function from its keyword on, at which `start` is the offset of `async` if that precedes. The
name of a declaration may be left out only where `unnamed` allows it. -/
def functionFrom (start : Nat) (declared isAsync unnamed : Bool) : Reader Tree := do
  expectWord "function"
  let generator ← eat? "*"
  let ctx ← read
  let nameContext : Context :=
    if declared then ctx else { ctx with allowAwait := isAsync, allowYield := generator }
  let name ←
    if ← at? "(" then (if declared && !unnamed then fail else pure Tree.absent)
    else within (fun _ => nameContext) bindingName
  let (ps, body) ← functionTail g isAsync generator
  build start (.function declared isAsync generator) [name, ps, body]

def methodValue (isAsync generator : Bool) : Reader Tree := tree do
  let (ps, body) ← functionTail g isAsync generator
  return (.function false isAsync generator, [.absent, ps, body])

def fitsAccessor (role : Role) (f : Tree) : Bool :=
  match role, f with
  | .getter, .node _ _ [_, .node .params _ ps, _] => ps.isEmpty
  | .setter, .node _ _ [_, .node .params _ ps, _] =>
    match ps with
    | [p] => p.form != .rest
    | _ => false
  | _, _ => true

structure Modifiers where
  role : Role := .value
  isAsync : Bool := false
  generator : Bool := false

def endsKey (t : Token) : Bool :=
  ["(", ",", ":", "\x7d", "=", ";"].any t.isMark || t.isEnd

/-- `async`, `get`, `set` and `*` before a key. In a class a line end after `get` or `set` makes it
no field. -/
def modifiers : Reader Modifiers := do
  let t ← current
  if t.isWord "async" then
    let n ← peek
    if endsKey n || n.afterNewline then return {}
    else
      advance
      return { isAsync := true, generator := ← eat? "*" }
  else if t.isWord "get" || t.isWord "set" then
    let n ← peek
    if endsKey n || n.isMark "*" then return {}
    else
      advance
      return { role := if t.isWord "get" then .getter else .setter }
  else return { generator := ← eat? "*" }

def methodAfter (m : Modifiers) : Reader (Role × Tree) := do
  let f ← methodValue g m.isAsync m.generator
  let role := if m.role = .value then .method else m.role
  if fitsAccessor role f then return (role, f) else fail

def fieldContext (ctx : Context) : Context :=
  { ctx with allowIn := true, allowAwait := false, allowYield := false }

def keyName? (key : Tree) (computed : Bool) : Option String :=
  if computed then none
  else
    match key.form with
    | .name n => some n
    | .string points _ => some (String.ofList (points.map Char.ofNat))
    | _ => none

/-- `constructor` names a plain method and neither a field nor a private member, and no static
member is named `prototype`. -/
def fitsMember (m : Modifiers) (isStatic isMethod computed : Bool) (key : Tree) : Bool :=
  let name := keyName? key computed
  let special := m.role != .value || m.isAsync || m.generator
  key.form != .privateName "constructor" &&
    !(isStatic && name == some "prototype") &&
    !(name == some "constructor" && (!isMethod || (special && !isStatic)))

def classMember : Reader Tree := tree do
  let isStatic ← do
    if ← atWord? "static" then
      if endsKey (← peek) then pure false
      else
        advance
        pure true
    else pure false
  if isStatic && (← at? "\x7b") then
    advance
    let inBlock (ctx : Context) : Context :=
      { ctx with allowIn := true, allowAwait := true, allowYield := false, allowReturn := false }
    let stmts ← within inBlock (manyTo "\x7d" (g.statement false))
    return (.staticBlock, stmts)
  else
    let accessor ← do
      if ← atWord? "accessor" then
        let n ← peek
        if endsKey n || n.afterNewline then pure false
        else
          advance
          pure true
      else pure false
    let m ← modifiers
    let (key, computed) ← propertyKey g
    unless fitsMember m isStatic (← at? "(") computed key do fail
    if ← at? "(" then
      let (role, f) ← methodAfter g m
      return (.classMember role isStatic computed accessor, [key, f])
    else if m.role != .value || m.isAsync || m.generator then fail
    else
      let value ←
        if ← eat? "=" then within fieldContext g.assignment else pure Tree.absent
      endStatement
      return (.classMember .value isStatic computed accessor, [key, value])

def classFrom (start : Nat) (declared unnamed : Bool) : Reader Tree := do
  expectWord "class"
  let named := ((← current).word?.any fun w => w != "extends") && !(← at? "\x7b")
  let name ←
    if named then bindingName else if declared && !unnamed then fail else pure Tree.absent
  let parent ← if ← eatWord? "extends" then g.leftHandSide else pure Tree.absent
  expect "\x7b"
  let item : Reader (Option Tree) := do
    if ← eat? ";" then return none else return some (← classMember g)
  let members ← manyTo "\x7d" item
  build start (.classOf declared) (name :: parent :: members.filterMap id)

end ReactiveMarkup.Script
