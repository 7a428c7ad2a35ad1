import ReactiveMarkup.Reactive.Mount

/-! # Promises

A promise is settled at most once. What waits for it then runs at once, in order; what is added
later runs right away.
-/

namespace ReactiveMarkup.Reactive

variable {κ υ : Type} (h : Host κ υ) (i : PromiseId)

def newPromise : Act κ υ PromiseId :=
  modifyGet fun w => (w.promises.size, { w with promises := w.promises.push {} })

def mountSettled (b : AwaitBlock κ) : Settled → Act κ υ Unit
  | .fulfilled v => b.fulfilled.forM fun r => mountBranch h b.point r (some v)
  | .rejected v => b.rejected.forM fun r => mountBranch h b.point r (some v)

/-- A block that has seen another value since it began to wait does nothing. -/
def wake (result : Settled) : Waiter κ → Act κ υ Unit
  | .hook k => h.run k (.settled result)
  | .block i generation => do
    let b ← find World.awaits i
    if b.generation = generation then
      unmount h b.point
      mountSettled h b result
      h.run b.apply .plain

def settle (result : Settled) : Act κ υ Unit := do
  let p ← find World.promises i
  if p.settled.isNone then
    updatePromise i fun p => { p with settled := some result, waiters := [] }
    p.waiters.forM (wake h result)

def await (w : Waiter κ) : Act κ υ Unit := do
  match (← find World.promises i).settled with
  | some result => wake h result w
  | none => updatePromise i fun p => { p with waiters := p.waiters ++ [w] }

/-- Shows a value that an expression has just taken: the branch of a plain value, or the pending
branch of a promise until it is settled. -/
def awaitValue (i : AwaitId) (v : Value) : Act κ υ Unit := do
  unmount h (← find World.awaits i).point
  updateAwait i fun b => { b with generation := b.generation + 1 }
  let b ← find World.awaits i
  match v with
  | .promise p =>
    b.pending.forM fun r => mountBranch h b.point r none
    await h p (.block i b.generation)
  | v => mountSettled h b (.fulfilled v)

end ReactiveMarkup.Reactive
