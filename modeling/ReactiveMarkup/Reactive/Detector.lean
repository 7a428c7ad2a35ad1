import ReactiveMarkup.Reactive.World

/-! # Change detectors -/

namespace ReactiveMarkup.Reactive

variable {κ υ : Type} (d : DetectorId)

def newDetector : Act κ υ DetectorId :=
  modifyGet fun w =>
    let i := w.detectors.size
    (i, { w with detectors := w.detectors.push { root := i } })

def newChild (parent : DetectorId) : Act κ υ DetectorId := do
  let p ← find World.detectors parent
  let i ← modifyGet fun w =>
    (w.detectors.size, { w with detectors := w.detectors.push { root := p.root } })
  updateDetector parent fun d => { d with children := d.children ++ [i] }
  return i

def removeChild (parent child : DetectorId) : Act κ υ Unit :=
  updateDetector parent fun d => { d with children := d.children.filter (· != child) }

def watch (w : Watcher κ) : Act κ υ WatcherId := do
  let i ← modifyGet fun s => (s.watchers.size, { s with watchers := s.watchers.push w })
  updateDetector d fun c => { c with watchers := c.watchers ++ [i] }
  return i

def watchReadOnly (source : Source κ) (action : Action κ) : Act κ υ Unit := do
  let _ ← watch d { source, action, readOnly := true }

def addPrelude (k : κ) : Act κ υ Unit :=
  updateDetector d fun c => { c with preludes := c.preludes ++ [k] }

def onDestroy (c : Cleanup κ) : Act κ υ Unit :=
  updateDetector d fun e => { e with cleanups := e.cleanups ++ [c] }

def once (k : κ) : Act κ υ Unit := do
  let c ← find World.detectors d
  updateDetector c.root fun r => { r with onces := r.onces ++ [k] }

/-- Destroys a detector: its own cleanups in order of registration, then its children in order.
A cleanup that fails keeps none of the others from running. -/
def destroyTo (h : Host κ υ) : Nat → DetectorId → Act κ υ Unit
  | 0, _ => throw .exhausted
  | n + 1, i => do
    updateDetector i fun d => { d with destroyed := true, watchers := [], preludes := [] }
    let cleanups := (← find World.detectors i).cleanups
    updateDetector i fun d => { d with cleanups := [] }
    cleanups.forM fun c => guarded <|
      match c with
      | .hook k => h.run k .plain
      | .removeListener node l => changeDocument (·.removeListener node l)
      | .destroy j => destroyTo h n j
    let children := (← find World.detectors i).children
    updateDetector i fun d => { d with children := [] }
    children.forM (destroyTo h n)

/-- No path of detectors is longer than there are detectors. -/
def destroy (h : Host κ υ) (i : DetectorId) : Act κ υ Unit := do
  destroyTo h ((← get).detectors.size + slack) i

end ReactiveMarkup.Reactive
