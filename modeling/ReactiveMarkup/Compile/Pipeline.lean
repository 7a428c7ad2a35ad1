import ReactiveMarkup.Compile.Assembly
import ReactiveMarkup.Compile.Edit
import ReactiveMarkup.Markup.Compact
import ReactiveMarkup.Markup.Tree

/-! # Compiling a component

What observers saw and what was warned about is kept when the compilation fails.
-/

namespace ReactiveMarkup.Compile

open Markup (Halt RawBlock)

structure Run where
  context : Context
  edits : List Edit
  tokens : Option Style.TokenSource
  trace : List Snapshot := []
  warnings : List String := []

abbrev Compiler := ExceptT Halt (StateM Run)

def failWith {α : Type} (d : Diagnostic) : Compiler α := throw (.diagnostic d)

def change (f : Context → Context) : Compiler Unit :=
  modify fun r => { r with context := f r.context }

def applyEdit (phase : Phase) (e : Edit) : Compiler Unit := do
  let r ← get
  match e with
  | .observe => set { r with trace := r.trace ++ [r.context.snapshot phase.name] }
  | .at p c =>
    if p = phase then
      match c.apply phase r.context with
      | .ok context => set { r with context }
      | .error d => failWith d

def enter (phase : Phase) : Compiler Unit := do (← get).edits.forM (applyEdit phase)

inductive Fault where
  | manyScripts
  | noScript
  | noResult
  | notText
  deriving DecidableEq, Repr

def Fault.diagnose : Fault → Diagnostic
  | .manyScripts => { code := .script, message := "Only one script section" }
  | .noScript => { code := .generation, message := "Script is not transformed" }
  | .noResult => { code := .generation, message := "No output produced" }
  | .notText =>
    { code := .generation
      message := "Failed to read file: stream did not contain valid UTF-8" }

def readMarkup : Compiler Unit := do
  match Markup.parse (← get).context.source with
  | .ok root => change fun c => { c with root }
  | .error h => throw h

def readScript : Compiler Unit := do
  let c := (← get).context
  let block := c.scripts.head?
  let property := block.any (RawBlock.hasAttribute · "property")
  match Script.transform (block.map (·.content)) c.options property with
  | .ok script => change fun c => { c with script := some script }
  | .error d => failWith d

def scopeStyles : Compiler Unit := do
  let r ← get
  let c := r.context
  match Style.scopeOf c.styles c.options r.tokens with
  | .error f => failWith f.diagnose
  | .ok none => change fun c => { c with scope := none }
  | .ok (some scope) =>
    change fun c => { c with scope := some scope }
    match scope.apply c.root with
    | .error f => failWith f.diagnose
    | .ok root => change fun c => { c with root }

def theScript : Compiler Script.Component := do
  match (← get).context.script with
  | some s => return s
  | none => failWith Fault.noScript.diagnose

def generateTemplate : Compiler Unit := do
  let script ← theScript
  let c := (← get).context
  let setting : Template.Setting := { options := c.options, script, scope := c.scope }
  let (result, work) := (generateParts c.root).start setting
  modify fun r => { r with warnings := r.warnings ++ work.warnings }
  match result with
  | .ok parts => change fun c => { c with parts }
  | .error d => failWith d

def shakeScript : Compiler Unit := do
  let script ← theScript
  let parts := (← get).context.parts
  let shaken := script.shake (parts.header ++ parts.body ++ script.source)
  change fun c => { c with script := some shaken }

def buildScript : Compiler Unit := do
  let c := (← get).context
  match c.script with
  | none => pure ()
  | some script =>
    match script.build c.options with
    | .ok built => change fun c => { c with script := some built }
    | .error d => failWith d

def writeModule : Compiler Unit := do
  let script ← theScript
  change fun c => { c with result := some (assemble c script) }

def phases : Compiler Unit := do
  enter .treeBefore
  readMarkup
  enter .tree
  change Context.splitSections
  enter .treeCheck
  if 1 < (← get).context.scripts.length then failWith Fault.manyScripts.diagnose
  enter .treeCompact
  if (← get).context.options.compact then change fun c => { c with root := c.root.compact }
  enter .treeAfter
  enter .scriptBefore
  enter .script
  readScript
  enter .scriptAfter
  enter .styleBefore
  scopeStyles
  enter .style
  enter .templateBefore
  generateTemplate
  enter .template
  enter .buildBefore
  shakeScript
  enter .buildShaking
  buildScript
  enter .buildAssemble
  writeModule
  enter .build

structure Report where
  outcome : Except Halt String
  warnings : List String
  trace : List Snapshot

/-- Compiles a component. Positions of failures refer to `source`. -/
def compile (source : String) (options : Options) (tokens : Option Style.TokenSource)
    (edits : List Edit) : Report :=
  let (result, run) := phases.run.run { context := { source, options }, edits, tokens }
  let outcome : Except Halt String :=
    match result, run.context.result with
    | .error (.diagnostic d), _ => .error (.diagnostic (d.anchor source))
    | .error h, _ => .error h
    | .ok _, some code => .ok code
    | .ok _, none => .error (.diagnostic Fault.noResult.diagnose)
  { outcome, warnings := run.warnings, trace := run.trace }

end ReactiveMarkup.Compile
