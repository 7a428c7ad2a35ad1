import ReactiveMarkup.Reactive.Compare
import ReactiveMarkup.Reactive.Template

/-! # The reactive world

The state that detectors, blocks and components share. User code is kept apart: a hook of type `κ`
stands for a piece of it, `υ` is its own state, and a `Host` says what hooks do and how page markup
is read.
-/

namespace ReactiveMarkup.Reactive

abbrev DetectorId := Nat
abbrev WatcherId := Nat
abbrev PromiseId := Nat
abbrev SchedulerId := Nat
abbrev SpreadId := Nat
abbrev PointId := Nat
abbrev AwaitId := Nat
abbrev MarkupId := Nat
abbrev ListId := Nat
abbrev ComponentId := Nat
abbrev ContextId := Nat

inductive Occasion where
  | plain
  | value (v : Value)
  | event (name : String) (target : NodeId) (detail : Value)
  | settled (result : Settled)
  | built (detector : DetectorId) (fragment : NodeId) (value : Option Value)
  | rebound (index : Nat) (item : Value)

/-- What a listener does: call a hook with the event, or with a property of the element. -/
inductive Reaction (κ : Type) where
  | hook (k : κ)
  | input (property : String) (k : κ)

structure Branch (κ : Type) where
  template : NodeId
  build : κ

inductive Source (κ : Type) where
  | hook (k : κ)
  | truth (k : κ)
  | property (component : ComponentId) (name : String)

inductive Action (κ : Type) where
  | hook (k : κ)
  | showText (node : NodeId)
  | showAttribute (node : NodeId) (name : String)
  | showClasses (node : NodeId) (classes : List String)
  | showStyle (node : NodeId) (property : String)
  | showProperty (node : NodeId) (name : String)
  | spreadFields (spread : SpreadId) (slot : Nat)
  | spreadField (spread : SpreadId) (slot : Nat) (name : String)
  | chooseBranch (point : PointId) (main : Branch κ) (alt : Option (Branch κ))
  | awaitValue (block : AwaitId)
  | showMarkup (block : MarkupId)
  | listItems (block : ListId)
  | mountComponent (point : PointId) (makers : List (String × κ)) (options : κ)

structure Watcher (κ : Type) where
  source : Source κ
  action : Action κ
  readOnly : Bool := false
  comparator : Comparator := .identity
  value : Value := .undefined

inductive Cleanup (κ : Type) where
  | hook (k : κ)
  | removeListener (node : NodeId) (listener : ListenerId)
  | destroy (detector : DetectorId)

structure Detector (κ : Type) where
  root : DetectorId
  children : List DetectorId := []
  watchers : List WatcherId := []
  preludes : List κ := []
  cleanups : List (Cleanup κ) := []
  onces : List κ := []
  destroyed : Bool := false

inductive Task (κ : Type) where
  | hook (k : κ)
  | digest (scheduler : SchedulerId)
  | render (spread : SpreadId)

/-- What waits for a promise: a hook, or a block as it was at one of its generations. -/
inductive Waiter (κ : Type) where
  | hook (k : κ)
  | block (block : AwaitId) (generation : Nat)

structure Promise (κ : Type) where
  settled : Option Settled := none
  waiters : List (Waiter κ) := []

structure Scheduler where
  root : DetectorId
  planned : Bool := false
  running : Bool := false
  digests : Nat := 0
  deriving DecidableEq, Repr

structure Spread where
  detector : DetectorId
  element : NodeId
  css : Option String
  shown : List (String × Value) := []
  sources : List (List (String × Value)) := []
  planned : Bool := false

structure Mounted where
  detector : DetectorId
  extent : Option (NodeId × NodeId)
  deriving DecidableEq, Repr

structure Point where
  owner : DetectorId
  label : NodeId
  mounted : Option Mounted := none
  deriving DecidableEq, Repr

structure AwaitBlock (κ : Type) where
  point : PointId
  pending : Option (Branch κ)
  fulfilled : Option (Branch κ)
  rejected : Option (Branch κ)
  apply : κ
  generation : Nat := 0

structure MarkupBlock where
  label : NodeId
  last : Option NodeId := none
  deriving DecidableEq, Repr

/-- Where the items of a list go: after a label, or inside an element of their own. -/
inductive Anchor where
  | after (label : NodeId)
  | inside (element : NodeId)
  deriving DecidableEq, Repr

structure Item (κ : Type) where
  detector : DetectorId
  extent : Option (NodeId × NodeId)
  rebind : κ

structure ListBlock (κ : Type) where
  owner : DetectorId
  anchor : Anchor
  template : NodeId
  build : κ
  keyOf : Option κ
  live : List (Key × Item κ) := []

structure ComponentOptions (κ : Type) where
  properties : List (String × Value) := []
  events : List (String × κ) := []
  slots : List (String × κ) := []
  context : Option ContextId := none
  noMount : Bool := false

structure Component (κ : Type) where
  detector : DetectorId
  scheduler : SchedulerId
  properties : List (String × Value)
  events : List (String × κ)
  slots : List (String × κ)
  context : ContextId
  noMount : Bool
  mountHooks : List κ := []
  extent : Option (NodeId × NodeId) := none

structure SlotHandle (κ : Type) where
  destroy : κ
  setters : List (String × κ)

structure World (κ υ : Type) where
  user : υ
  document : Document (Reaction κ) := {}
  detectors : Array (Detector κ) := #[]
  watchers : Array (Watcher κ) := #[]
  promises : Array (Promise κ) := #[]
  tasks : List (Task κ) := []
  schedulers : Array Scheduler := #[]
  spreads : Array Spread := #[]
  points : Array Point := #[]
  awaits : Array (AwaitBlock κ) := #[]
  markups : Array MarkupBlock := #[]
  lists : Array (ListBlock κ) := #[]
  components : Array (Component κ) := #[]
  contexts : Array (List (String × Value)) := #[]
  identities : Nat := 0

/-- Why a computation stops: user code failed, or a walk outgrew its bound. -/
inductive Stop where
  | failed
  | exhausted
  deriving DecidableEq, Repr

/-- Computations in the world. What was done before a stop stays done. -/
abbrev Act (κ υ : Type) := ExceptT Stop (StateM (World κ υ))

structure Host (κ υ : Type) where
  read : κ → Act κ υ Value
  key : κ → Value → Nat → Act κ υ Value
  run : κ → Occasion → Act κ υ Unit
  buildItem : κ → DetectorId → NodeId → Nat → Value → Act κ υ κ
  attach : κ → NodeId → Act κ υ (SlotHandle κ)
  construct : κ → NodeId → ComponentOptions κ → Act κ υ ComponentId
  options : κ → Act κ υ (ComponentOptions κ)
  page : PageReader

/-- How many members user code may add to a structure while it is walked. -/
def slack : Nat := 1000000

variable {κ υ α : Type}

def find (store : World κ υ → Array α) (i : Nat) : Act κ υ α := do
  match (store (← get))[i]? with
  | some a => return a
  | none => throw .failed

/-- Lets a failure of user code pass; what was done before it stays done. -/
def guarded (a : Act κ υ Unit) : Act κ υ Unit :=
  tryCatch a fun s =>
    match s with
    | .failed => pure ()
    | .exhausted => throw .exhausted

def updateDetector (i : DetectorId) (f : Detector κ → Detector κ) : Act κ υ Unit :=
  modify fun w => { w with detectors := w.detectors.modify i f }

def updateWatcher (i : WatcherId) (f : Watcher κ → Watcher κ) : Act κ υ Unit :=
  modify fun w => { w with watchers := w.watchers.modify i f }

def updatePromise (i : PromiseId) (f : Promise κ → Promise κ) : Act κ υ Unit :=
  modify fun w => { w with promises := w.promises.modify i f }

def updateScheduler (i : SchedulerId) (f : Scheduler → Scheduler) : Act κ υ Unit :=
  modify fun w => { w with schedulers := w.schedulers.modify i f }

def updateSpread (i : SpreadId) (f : Spread → Spread) : Act κ υ Unit :=
  modify fun w => { w with spreads := w.spreads.modify i f }

def updatePoint (i : PointId) (f : Point → Point) : Act κ υ Unit :=
  modify fun w => { w with points := w.points.modify i f }

def updateAwait (i : AwaitId) (f : AwaitBlock κ → AwaitBlock κ) : Act κ υ Unit :=
  modify fun w => { w with awaits := w.awaits.modify i f }

def updateMarkup (i : MarkupId) (f : MarkupBlock → MarkupBlock) : Act κ υ Unit :=
  modify fun w => { w with markups := w.markups.modify i f }

def updateList (i : ListId) (f : ListBlock κ → ListBlock κ) : Act κ υ Unit :=
  modify fun w => { w with lists := w.lists.modify i f }

def updateComponent (i : ComponentId) (f : Component κ → Component κ) : Act κ υ Unit :=
  modify fun w => { w with components := w.components.modify i f }

def updateContext (i : ContextId) (f : List (String × Value) → List (String × Value)) :
    Act κ υ Unit :=
  modify fun w => { w with contexts := w.contexts.modify i f }

def document : Act κ υ (Document (Reaction κ)) := return (← get).document

def changeDocument (f : Document (Reaction κ) → Document (Reaction κ)) : Act κ υ Unit :=
  modify fun w => { w with document := f w.document }

def extendDocument (f : Document (Reaction κ) → Nat × Document (Reaction κ)) : Act κ υ Nat := do
  let (i, d) := f (← document)
  changeDocument fun _ => d
  return i

def addTask (t : Task κ) : Act κ υ Unit :=
  modify fun w => { w with tasks := w.tasks ++ [t] }

def newIdentity : Act κ υ Nat :=
  modifyGet fun w => (w.identities, { w with identities := w.identities + 1 })

end ReactiveMarkup.Reactive
