import ReactiveMarkup.Reactive.Digest

/-! # The event loop

Tasks run one after the other. A scheduler has at most one digest of its root among them.
-/

namespace ReactiveMarkup.Reactive

variable {κ υ : Type}

def newScheduler (root : DetectorId) : Act κ υ SchedulerId :=
  modifyGet fun w =>
    (w.schedulers.size, { w with schedulers := w.schedulers.push { root } })

def apply (i : SchedulerId) : Act κ υ Unit := do
  let s ← find World.schedulers i
  if !s.running && !s.planned then
    updateScheduler i fun s => { s with planned := true }
    addTask (.digest i)

def runNow (h : Host κ υ) (i : SchedulerId) : Act κ υ Nat := do
  let root := (← find World.schedulers i).root
  updateScheduler i fun s => { s with running := true }
  let passes ← digest h root (updateScheduler i fun s => { s with running := false })
  updateScheduler i fun s => { s with running := false, digests := s.digests + 1 }
  return passes

def runTask (h : Host κ υ) : Task κ → Act κ υ Unit
  | .hook k => h.run k .plain
  | .digest i => do
    updateScheduler i fun s => { s with planned := false }
    let _ ← runNow h i
  | .render i => renderSpread i

def runTasks (h : Host κ υ) : Nat → Nat → Act κ υ Nat
  | 0, _ => throw .exhausted
  | n + 1, ran => do
    match (← get).tasks with
    | [] => return ran
    | t :: rest =>
      modify fun w => { w with tasks := rest }
      runTask h t
      runTasks h n (ran + 1)

def runUntilIdle (h : Host κ υ) : Act κ υ Nat := do
  runTasks h ((← get).tasks.length + slack) 0

end ReactiveMarkup.Reactive
