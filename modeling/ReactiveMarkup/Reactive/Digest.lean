import ReactiveMarkup.Reactive.Items
import ReactiveMarkup.Reactive.Promise
import ReactiveMarkup.Reactive.Spread

/-! # Digests

Passes over a tree of detectors, breadth first, until one of them sees no change or there have been
too many.
-/

namespace ReactiveMarkup.Reactive

variable {κ υ : Type} (h : Host κ υ) (root : DetectorId)

def readSource : Source κ → Act κ υ Value
  | .hook k => h.read k
  | .truth k => return .bool (← h.read k).isTruthy
  | .property c name => return ((← find World.components c).properties.lookup name).getD .undefined

def perform (a : Action κ) (v : Value) : Act κ υ Unit :=
  match a with
  | .hook k => h.run k (.value v)
  | .showText node => changeDocument (·.setText node v.text)
  | .showAttribute node name => changeDocument fun d =>
      if v.isNullish then d.removeAttribute node name else d.setAttribute node name v.text
  | .showClasses node classes => changeDocument fun d =>
      classes.foldl (fun d c => d.toggleClass node c v.isTruthy) d
  | .showStyle node property =>
    changeDocument (·.setStyle node property (if v.isNullish then none else some v.text))
  | .showProperty node name => changeDocument (·.setProperty node name v)
  | .spreadFields s slot => setSource s slot fun _ => v.fields?.getD []
  | .spreadField s slot name => setSource s slot (assign name v)
  | .chooseBranch p main alt => chooseBranch h p main alt v
  | .awaitValue b => awaitValue h b v
  | .showMarkup b => showMarkup h b v
  | .listItems b => listItems h b v
  | .mountComponent p makers options => mountComponent h p makers options v

/-- Reads a watcher's source. A change is remembered, then acted on; the answer says whether it
counts. -/
def check (i : WatcherId) : Act κ υ Bool := do
  let w ← find World.watchers i
  let next ← readSource h w.source
  let before := (← find World.watchers i).value
  if w.comparator.changed before next then
    updateWatcher i fun w => { w with value := next }
    perform h w.action next
    return !w.readOnly
  else return false

structure Location where
  detector : Nat
  watcher : Nat
  value : Value

/-- Checks the watchers of a detector from an index on, those registered meanwhile included. -/
def checkFrom (h : Host κ υ) (d : DetectorId) (position : Nat) :
    Nat → Nat → Option Location → Act κ υ (Option Location)
  | 0, _, _ => throw .exhausted
  | n + 1, index, last => do
    match (← find World.detectors d).watchers[index]? with
    | none => return last
    | some i =>
      let counts ← check h i
      let last ← if counts then
          let value := (← find World.watchers i).value
          pure (some { detector := position, watcher := index, value })
        else pure last
      checkFrom h d position n (index + 1) last

/-- Visits the detectors of a queue. The children of each are queued after its watchers ran. -/
def visitFrom (h : Host κ υ) :
    Nat → List DetectorId → Nat → Option Location → Act κ υ (Option Location)
  | 0, _, _, _ => throw .exhausted
  | _ + 1, [], _, last => return last
  | n + 1, d :: queue, position, last => do
    let preludes := (← find World.detectors d).preludes
    preludes.forM fun k => h.run k .plain
    let last ← checkFrom h d position ((← get).watchers.size + slack) 0 last
    let children := (← find World.detectors d).children
    visitFrom h n (queue ++ children) (position + 1) last

def pass : Act κ υ (Option Location) := do
  visitFrom h ((← get).detectors.size + slack) [root] 0 none

structure DigestReport where
  passes : Nat
  converged : Bool
  last : Option Location

def passesFrom (h : Host κ υ) (root : DetectorId) :
    Nat → Nat → Option Location → Act κ υ DigestReport
  | 0, made, last => return { passes := made, converged := false, last }
  | n + 1, made, last => do
    match ← pass h root with
    | none => return { passes := made + 1, converged := true, last }
    | some l => passesFrom h root n (made + 1) (some l)

def maxPasses : Nat := 10

/-- A digest: the passes, `finish`, and then the hooks that wait for a digest. Those that a waiting
hook adds wait for the next one. -/
def digestReport (finish : Act κ υ Unit) : Act κ υ DigestReport := do
  let report ← passesFrom h root maxPasses 0 none
  finish
  let onces := (← find World.detectors root).onces
  updateDetector root fun d => { d with onces := [] }
  onces.forM fun k => guarded (h.run k .plain)
  return report

def digest (finish : Act κ υ Unit) : Act κ υ Nat :=
  return (← digestReport h root finish).passes

end ReactiveMarkup.Reactive
