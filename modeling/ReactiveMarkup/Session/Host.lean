import ReactiveMarkup.Session.Run

/-! # Sessions

The answers of a list of steps in a fresh world.
-/

namespace ReactiveMarkup.Session

open Reactive

variable (h : Host Hook State) (k : Hook)

def occasionEntries : Occasion → List (String × Entry)
  | .plain => []
  | .value v => [("$value", .value v)]
  | .event name target detail =>
    [("$value", .value detail), ("$event", .value (.string name)), ("$target", .node target)]
  | .settled (.fulfilled v) => [("$value", .value v), ("$ok", .value (.bool true))]
  | .settled (.rejected v) => [("$value", .value v), ("$ok", .value (.bool false))]
  | .built detector fragment value =>
    [("$cd", .detector detector), ("$frag", .node fragment)] ++
      value.toList.map fun v => ("$value", .value v)
  | .rebound index item => [("item", .value item), ("index", .value (.ofNat index))]

def runHook (o : Occasion) : Code Unit :=
  match k with
  | .steps body scope => do runSteps h (← newScope scope (occasionEntries o)) body
  | .within body scope => runSteps h scope body
  | .rebind scope => (occasionEntries o).forM fun e => define scope e.1 e.2
  | _ => throw .failed

def readHook : Hook → Code Value
  | .expression e scope => evaluate scope e
  | _ => throw .failed

def keyHook (item : Value) (index : Nat) : Code Value :=
  match k with
  | .expression e scope => do
    evaluate (← newScope scope (occasionEntries (.rebound index item))) e
  | _ => throw .failed

def buildHook (detector : DetectorId) (fragment : NodeId)
    (index : Nat) (item : Value) : Code Hook :=
  match k with
  | .steps body scope => do
    let inner ← newScope scope
      (occasionEntries (.built detector fragment none) ++ occasionEntries (.rebound index item))
    runSteps h inner body
    return .rebind inner
  | _ => throw .failed

def attachHook (label : NodeId) : Code (SlotHandle Hook) :=
  match k with
  | .slot s scope => do
    let fragment ← extendDocument (·.fragment h.page s.html false)
    let inner ← newScope scope [("$frag", .node fragment), ("$label", .node label)]
    runSteps h inner s.body
    insertAfter label fragment
    return {
      destroy := .steps s.destroy inner
      setters := s.setters.map fun e => (e.1, .steps e.2 inner) }
  | _ => throw .failed

def constructHook (host : NodeId) (options : ComponentOptions Hook) : Code ComponentId :=
  match k with
  | .maker m scope => do
    let i ← newComponent options
    let inner ← newScope scope (← componentEntries i)
    m.onMount.forM fun body => onMount i (.steps body inner)
    renderIn h inner i host m.html m.body
    return i
  | _ => throw .failed

def optionsHook : Hook → Code (ComponentOptions Hook)
  | .options o scope => optionsOf scope o
  | _ => throw .failed

def hostTo : Nat → Host Hook State
  | 0 =>
    { read := fun _ => throw .exhausted
      key := fun _ _ _ => throw .exhausted
      run := fun _ _ => throw .exhausted
      buildItem := fun _ _ _ _ _ => throw .exhausted
      attach := fun _ _ => throw .exhausted
      construct := fun _ _ _ => throw .exhausted
      options := fun _ => throw .exhausted
      page := Fragment.read }
  | n + 1 =>
    { read := readHook
      key := keyHook
      run := fun k o => runHook (hostTo n) k o
      buildItem := fun k d f i v => buildHook (hostTo n) k d f i v
      attach := fun k l => attachHook (hostTo n) k l
      construct := fun k e o => constructHook (hostTo n) k e o
      options := optionsHook
      page := Fragment.read }

def maxDepth : Nat := 100000

/-- What one step answers, and what was logged while it ran. A step that stops answers nothing. -/
structure Outcome where
  answer : Option Shown
  log : List Shown

abbrev Setting := World Hook State

def start : Setting := { user := {} }

def step (w : Setting) (s : Step) : Outcome × Setting :=
  let (result, w) := ((runStep (hostTo maxDepth) outermost s).run).run w
  let log := w.user.log
  ({ answer := result.toOption, log }, { w with user := { w.user with log := [] } })

def outcomesFrom (w : Setting) : List Step → List Outcome
  | [] => []
  | s :: rest =>
    let (o, w) := step w s
    o :: outcomesFrom w rest

def outcomes (steps : List Step) : List Outcome := outcomesFrom start steps

end ReactiveMarkup.Session
