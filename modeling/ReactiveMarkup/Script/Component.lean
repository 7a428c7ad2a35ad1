import ReactiveMarkup.Compile.Options
import ReactiveMarkup.Expression
import ReactiveMarkup.Script.Instrument
import ReactiveMarkup.Script.Printer

/-! # Component scripts

The script of a component becomes the body of the component function.
-/

namespace ReactiveMarkup.Script

open Text (Span)

variable (source : List Char)

/-- A statement of the component function. Statements with a group are dropped when nothing refers
to the group's name. -/
structure RootItem where
  code : String
  group : Option String := none
  deriving DecidableEq, Repr

structure Component where
  source : String
  watchers : List String := []
  imports : List String := []
  importedNames : List String := []
  props : List String := []
  rootVariables : List String := []
  rootFunctions : List String := []
  importCode : List String := []
  rootLevel : List RootItem := []
  code : String := ""
  deriving DecidableEq, Repr

variable (c : Component)

inductive WatchFault where
  | form
  | literal
  deriving DecidableEq, Repr

def WatchFault.message : WatchFault → String
  | .form => "Error"
  | .literal => "Wrong expression"

inductive Fault where
  | malformed
  | wrongExport (statement : String)
  | watch (cause : WatchFault) (statement : String)
  | build (code : String)
  deriving DecidableEq, Repr

def Fault.diagnose (source : String) : Fault → Diagnostic
  | .malformed => { code := .script, message := "Unexpected token", details := some source }
  | .wrongExport statement =>
    { code := .script, message := "Wrong export", details := some statement }
  | .watch cause statement =>
    Diagnostic.locate
      { code := .script
        message := cause.message ++ ": " ++ statement
        details := some statement }
      statement 0
  | .build code => { code := .script, message := "Script build error", details := some code }

/-- A comment line that exempts a function becomes the marker. -/
def markLine (line : List Char) : List Char :=
  let blanks := line.takeWhile Text.isBlank
  match line.drop blanks.length with
  | '/' :: '/' :: rest =>
    if Text.trimChars rest = "!no-check".toList then blanks ++ exemptMarker.toList ++ [';'] else line
  | _ => line

def markExempt (source : String) : String :=
  String.intercalate "\n" ((source.splitOn "\n").map fun l => String.ofList (markLine l.toList))

def insertName (names : List String) (n : String) : List String :=
  if names.contains n then names else names ++ [n]

namespace Component

def addDeclarators (ds : List Tree) : Component :=
  ds.foldl
    (fun c d =>
      match d with
      | .node .declarator _ [target, value] =>
        match target.name? with
        | some n =>
          let c := { c with rootVariables := insertName c.rootVariables n }
          match value.form with
          | .arrow .. => { c with rootFunctions := insertName c.rootFunctions n }
          | _ => c
        | none => c
      | _ => c)
    c

def addRootNames (stmt : Tree) : Component :=
  match stmt with
  | .node (.function true _ _) _ (name :: _) =>
    match name.name? with
    | some n => { c with rootFunctions := insertName c.rootFunctions n }
    | none => c
  | .node (.declaration _) _ ds => c.addDeclarators ds
  | .node .exportDeclaration _ [.node (.declaration _) _ ds] => c.addDeclarators ds
  | _ => c

def onMount (c : Component) : Bool := c.rootFunctions.contains "onMount"

def onDestroy (c : Component) : Bool := c.rootFunctions.contains "onDestroy"

def declares (name : String) : Bool :=
  c.rootFunctions.contains name || c.rootVariables.contains name

def checkRootName (path : String) : Bool × Option String :=
  match Expression.rootName? path with
  | none => (false, some ("Error name: " ++ path))
  | some root =>
    if c.declares root || c.importedNames.contains root then (true, none)
    else (false, some ("No name: " ++ path))

end Component

def isLiteral (e : Tree) : Bool :=
  match e.unparen.form with
  | .number _ | .string .. | .bigint _ | .regex .. | .template _ | .metaProperty .. => true
  | .constant w => w != "this"
  | _ => false

def requireExpression (e : Tree) : Except WatchFault Unit :=
  if isLiteral e then .error .literal else .ok ()

/-- The work on a script: its result so far, the statements of the function body, and how many of
them end with the last property. -/
structure Draft where
  component : Component
  body : List RootItem := []
  lastProp : Option Nat := none

variable (d : Draft)

namespace Draft

def add (item : RootItem) : Draft := { d with body := d.body ++ [item] }

def addWatcher (code : String) : Draft :=
  { d with component := { d.component with watchers := d.component.watchers ++ [code] } }

end Draft

def sliceOf (span : Span) : String :=
  String.ofList (sliceText source span.start span.stop)

def watchCallback (handler : Tree) : String :=
  let raw := sliceOf source handler.span
  match handler.unparen.form with
  | .arrow .. | .function .. => raw
  | _ =>
    if Expression.kind? raw = some .identifier then "(v) => \x7b " ++ raw ++ "(v); \x7d"
    else "() => \x7b " ++ raw ++ "; \x7d"

/-- A watcher that assigns the value of an expression. An unknown name on the left is declared. -/
def assignmentWatch (op : String) (target value : Tree) : Except WatchFault Draft := do
  if op != "=" then throw .form
  let target := target.unparen
  let (name, d) ←
    match target.form with
    | .name n =>
      if d.component.rootVariables.contains n then pure (n, d)
      else
        let d := d.add { code := "var " ++ n ++ ";" }
        pure (n, { d with component :=
          { d.component with rootVariables := insertName d.component.rootVariables n } })
    | .index _ => pure (sliceOf source target.span, d)
    | _ =>
      if target.isNamedMember then pure (sliceOf source target.span, d) else throw .form
  requireExpression value
  return d.addWatcher ("$watch($cd, () => (" ++ sliceOf source value.span ++ "), ($$value) => \x7b" ++
    name ++ " = $$value;\x7d);")

def sequenceWatch (es : List Tree) : Except WatchFault Draft := do
  let some handler := es.getLast? | throw .form
  let callback := watchCallback source handler
  let watched := es.dropLast
  match watched with
  | [] => throw .form
  | [e] =>
    requireExpression e
    return d.addWatcher ("$watch($cd, () => (" ++ sliceOf source e.span ++ "), " ++ callback ++ ");")
  | first :: rest =>
    (first :: rest).forM requireExpression
    let deps : Span := ⟨first.start, (rest.getLast?.getD first).stop⟩
    return d.addWatcher ("$watch($cd, () => [" ++ sliceOf source deps ++ "], ($args) => \x7b (" ++
      callback ++ ").apply(null, $args); \x7d, \x7bcmp: $runtime.$$compareArray\x7d);")

def watch (body : Tree) : Except WatchFault Draft :=
  match body with
  | .node .expression _ [e] =>
    match e.unparen with
    | .node (.assign op) _ [target, value] => assignmentWatch source d op target value
    | .node .sequence _ es => sequenceWatch source d es
    | _ => .error .form
  | _ => .error .form

def importStatement (code : String) (specifiers : List Tree) : Draft :=
  let locals : List (String × Bool) := specifiers.filterMap fun
    | .node .importDefault _ [n] => n.name?.map (·, true)
    | .node .importAll _ [n] => n.name?.map (·, false)
    | .node .importName _ [_, n] => n.name?.map (·, false)
    | _ => none
  { d with component :=
      { d.component with
        importedNames := d.component.importedNames ++ locals.map (·.1)
        imports := d.component.imports ++ (locals.filter (·.2)).map (·.1)
        importCode := d.component.importCode ++ [code] } }

def exportProperty (render : Span → String) (fault : Fault) (d : Draft) (declarator : Tree) :
    Except Fault Draft :=
  match declarator with
  | .node .declarator _ [target, value] =>
    match target.name? with
    | none => .error fault
    | some n =>
      let code :=
        if value.isAbsent then "let \x7b" ++ n ++ "\x7d = $props;"
        else "let \x7b" ++ n ++ " = " ++ render value.span ++ "\x7d = $props;"
      let d := { d with component := { d.component with props := d.component.props ++ [n] } }
      let d := d.add { code }
      .ok { d with lastProp := some d.body.length }
  | _ => .error fault

def statement (source : List Char) (patches : List Patch) (d : Draft) (stmt : Tree) :
    Except Fault Draft := do
  let text := sliceOf source stmt.span
  let render := renderSpan source patches
  match stmt with
  | .node (.importFrom ..) span specifiers => return importStatement d (render span) specifiers
  | .node .exportDeclaration _ [.node (.declaration _) _ ds] =>
    ds.foldlM (exportProperty render (.wrongExport text)) d
  | .node .exportDeclaration _ _ | .node (.exportNames _) _ _ | .node .exportDefault _ _
  | .node (.exportAll _) _ _ => throw (.wrongExport text)
  | .node .labeled span [label, body] =>
    if label.name? == some "$" then
      match watch source d body with
      | .ok d => return d
      | .error cause => throw (.watch cause text)
    else return d.add { code := render span }
  | stmt =>
    if isExemptMarker stmt then return d else return d.add { code := render stmt.span }

def propertyTail (props : List String) : List RootItem :=
  let skip := String.intercalate "," (props.map (· ++ ":1"))
  let getters := String.intercalate "," (props.map fun n => n ++ ": () => " ++ n)
  [{ code := "let $$skipAttrs = \x7b" ++ skip ++ "\x7d;", group := some "$attributes" },
    { code := "let $attributes = $runtime.recalcAttributes($props, $$skipAttrs);"
      group := some "$attributes" },
    { code := "$runtime.completeProps($component, () => \x7b\n(\x7b" ++
        String.intercalate "," props ++ "\x7d = $props);" },
    { code := "$attributes = $runtime.recalcAttributes($props, $$skipAttrs);"
      group := some "$attributes" },
    { code := "\x7d, \x7b" ++ getters ++ "\x7d);" }]

def headerItems (autoSubscribe ownDestroy : Bool) : List RootItem :=
  let c := d.component
  let propItems : List RootItem :=
    match d.lastProp with
    | some _ => [{ code := "const $props = $option.props;" }]
    | none =>
      [{ code := "const $props = $option.props;", group := some "$props" },
        { code := "let $attributes = $props;", group := some "$attributes" }]
  let subscriptions : List RootItem :=
    if autoSubscribe then
      c.importedNames.map fun n => { code := "$runtime.autoSubscribe($component, " ++ n ++ ");" }
    else []
  let emitter : List RootItem :=
    if c.declares "$emit" then []
    else [{ code := "const $emit = $runtime.$makeEmitter($option);", group := some "$emit" }]
  let destroy : List RootItem :=
    if ownDestroy then []
    else [{ code :=
      "function $onDestroy(fn) \x7b$runtime.cd_onDestroy($component.$cd, fn);\x7d" }]
  [{ code := "const $component = $runtime.$$makeComponent($element, $option);" },
    { code := "const $$apply = $component.apply;" },
    { code := "$$runtimeHeader();" }] ++ propItems ++
    [{ code := "const $context = $component.context;", group := some "$context" }] ++
    subscriptions ++ emitter ++ destroy

def externalProperty (n : String) : RootItem :=
  { code := "$runtime.makeExternalProperty($component, '" ++ n ++ "', () => " ++ n ++ ", _" ++ n ++
      " => " ++ n ++ " = _" ++ n ++ ");" }

def assemble (autoSubscribe ownDestroy property : Bool) : Component :=
  let c := d.component
  let body :=
    match d.lastProp with
    | some i => d.body.take i ++ propertyTail c.props ++ d.body.drop i
    | none => d.body
  let external := if property then c.props.map externalProperty else []
  { c with rootLevel :=
      headerItems d autoSubscribe ownDestroy ++ body ++ external ++ [{ code := "$$runtime();" }] }

/-- The component of a script. `property` makes its properties accessible from outside. -/
def transform (source : Option String) (o : Compile.Options) (property : Bool) :
    Except Diagnostic Component :=
  let source := markExempt (source.getD "")
  match parse source with
  | none => .error (Fault.malformed.diagnose source)
  | some program =>
    let component := program.body.foldl Component.addRootNames { source }
    -- Declarations of the module itself take the place of the built-in one.
    let ownDestroy := component.declares "$onDestroy"
    let patches := instrument (!ownDestroy) program.body
    match program.body.foldlM (statement source.toList patches) { component } with
    | .error f => .error (f.diagnose source)
    | .ok d => .ok (assemble d o.autoSubscribe ownDestroy property)

namespace Component

/-- Groups that nothing in `used` refers to. The attributes are made from the properties. -/
def unusedGroups (used : String) : List String :=
  let unused (n : String) : Bool := !Text.contains used n
  let attributes :=
    if unused "$attributes" then
      "$attributes" :: (if unused "$props" then ["$props"] else [])
    else []
  attributes ++ (["$emit", "$context"].filter unused)

def shake (used : String) : Component :=
  let remove := unusedGroups used
  { c with rootLevel := c.rootLevel.filter fun i => !i.group.any remove.contains }

def moduleText (o : Compile.Options) : String :=
  String.join (c.importCode.map (· ++ "\n")) ++
    (if o.exportDefault then "export default " else "") ++
    "function " ++ o.name ++ "($element, $option = \x7b\x7d) \x7b\n" ++
    String.join (c.rootLevel.map (·.code ++ "\n")) ++ "\x7d\n"

def build (c : Component) (o : Compile.Options) : Except Diagnostic Component :=
  let code := c.moduleText o
  match parse code with
  | none => .error (Fault.diagnose code (.build code))
  | some program => .ok { c with code := program.print }

end Component

end ReactiveMarkup.Script
