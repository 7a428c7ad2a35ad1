import ReactiveMarkup.Proofs.MountPoint
import ReactiveMarkup.Proofs.PassRuns

/-! # Awaited values

A block that awaits values shows one branch at a time and waits for at most one promise in its
current generation. What it waited for in earlier generations may still wake it, without effect.
-/

namespace ReactiveMarkup.Reactive

open List Option World

variable {κ υ : Type}

/-! ## What is due -/

def Value.promise? : Value → Option PromiseId
  | .promise p => some p
  | _ => none

def result? (ps : Array (Promise κ)) (p : PromiseId) : Option Settled := ps[p]?.bind (·.settled)

structure Exhibit (κ : Type) where
  branch : Branch κ
  value : Option Value

namespace AwaitBlock

variable (b : AwaitBlock κ)

def branches : List (Branch κ) := b.pending.toList ++ b.fulfilled.toList ++ b.rejected.toList

def closing : Settled → Option (Exhibit κ)
  | .fulfilled v => b.fulfilled.map (⟨·, some v⟩)
  | .rejected v => b.rejected.map (⟨·, some v⟩)

def opening : Value → Option (Exhibit κ)
  | .promise _ => b.pending.map (⟨·, none⟩)
  | v => b.closing (.fulfilled v)

def due (ps : Array (Promise κ)) : Option Value → Option (Exhibit κ)
  | none => none
  | some v => match v.promise?.bind (result? ps) with
    | some r => b.closing r
    | none => b.opening v

variable {b}

theorem mem_branches_of_closing (he : e ∈ b.closing r) : e.branch ∈ b.branches := by
  cases r <;> obtain ⟨br, hbr, rfl⟩ := map_eq_some_iff.mp he <;> simp [branches, hbr]

theorem mem_branches_of_opening (he : e ∈ b.opening v) : e.branch ∈ b.branches := by
  unfold opening at he
  split at he
  · obtain ⟨br, hbr, rfl⟩ := map_eq_some_iff.mp he
    simp [branches, hbr]
  · exact mem_branches_of_closing he

end AwaitBlock

def outstanding (ps : Array (Promise κ)) (seen : Option Value) : Option PromiseId :=
  (seen.bind (·.promise?)).filter fun p => (result? ps p).isNone

theorem due_congr {b : AwaitBlock κ}
    (h : ∀ p, seen.bind (·.promise?) = some p → result? ps' p = result? ps p) :
    b.due ps' seen = b.due ps seen ∧ outstanding ps' seen = outstanding ps seen := by
  cases seen with
  | none => exact ⟨rfl, rfl⟩
  | some v =>
    unfold AwaitBlock.due outstanding
    cases hv : v.promise? with
    | none => simp [hv]
    | some p =>
      have hp := h p hv
      simp only [bind_some, hv, filter_some, hp, and_self]

theorem due_of_result {b : AwaitBlock κ} (hp : seen.bind (·.promise?) = some p)
    (hr : result? ps p = some r) : b.due ps seen = b.closing r ∧ outstanding ps seen = none := by
  obtain ⟨v, rfl, hv⟩ := bind_eq_some_iff.mp hp
  constructor
  · simp [AwaitBlock.due, hv, hr]
  · simp [outstanding, hv, hr]

theorem due_of_open {b : AwaitBlock κ} (hv : v.promise?.bind (result? ps) = none) :
    b.due ps (some v) = b.opening v ∧ outstanding ps (some v) = v.promise? := by
  refine ⟨by simp [AwaitBlock.due, hv], ?_⟩
  cases hp : v.promise? with
  | none => simp [outstanding, hp]
  | some p =>
    rw [hp, bind_some] at hv
    simp [outstanding, hp, hv]

theorem promise_of_outstanding (h : outstanding ps seen = some p) :
    seen.bind (·.promise?) = some p :=
  (filter_eq_some_iff.mp h).1

/-! ## The course of an observed value -/

/-- What happens to a block: its expression has taken a value, which may be a promise that has
already ended; a promise is settled; `apply` is called. -/
inductive Turn where
  | observed (v : Value) (result : Option Settled)
  | settled (p : PromiseId) (result : Settled)
  | called

namespace Turn

def isObserved : Turn → Bool
  | observed .. => true
  | _ => false

def isCall : Turn → Bool
  | called => true
  | _ => false

def settles (p : PromiseId) : Turn → Bool
  | settled q _ => q == p
  | _ => false

end Turn

/-- The value taken last is a promise that is still open, or one that has ended and is not shown
yet. -/
inductive Stage where
  | rest
  | awaiting (p : PromiseId)
  | ready (result : Settled)

namespace Stage

def after (v : Value) (result : Option Settled) : Stage :=
  match v.promise?, result with
  | none, _ => rest
  | some p, none => awaiting p
  | some _, some r => ready r

def awaited : Stage → Option PromiseId
  | awaiting p => some p
  | _ => none

def owed : Stage → Option Settled
  | ready r => some r
  | _ => none

theorem after_plain (hv : v.promise? = none) : after v r = rest := by
  simp [after, hv]

theorem after_open (hv : v.promise? = some p) : after v none = awaiting p := by
  simp [after, hv]

theorem after_ended (hv : v.promise? = some p) : after v (some r) = ready r := by
  simp [after, hv]

/-- Whether the value is a promise that has ended by the end of the turns `t`. -/
def endsIn (t : List Turn) : Stage → Bool
  | rest => false
  | awaiting p => t.any (·.settles p)
  | ready _ => true

end Stage

structure Progress where
  seen : Option Value := none
  stage : Stage := .rest

namespace Progress

/-- Only a promise that has ended while its value was the last one, or before it was taken, leads
to a call, and to one call. -/
def next (s : Progress) : Turn → Option Progress
  | .observed v result => some ⟨some v, .after v result⟩
  | .settled p result => match s.stage with
    | .awaiting q => some (if q = p then { s with stage := .ready result } else s)
    | _ => some s
  | .called => match s.stage with
    | .ready _ => some { s with stage := .rest }
    | _ => none

def replay (s : Progress) (t : List Turn) : Option Progress := t.foldlM next s

@[simp] theorem replay_nil {s : Progress} : s.replay [] = some s := rfl

theorem replay_cons {s : Progress} : s.replay (y :: t) = (s.next y).bind (·.replay t) := by
  rfl

theorem replay_append {s : Progress} : s.replay (t ++ t') = (s.replay t).bind (·.replay t') := by
  simp only [replay, foldlM_append]
  rfl

theorem replay_trans {s s' s'' : Progress} (h : s.replay t = some s') (h' : s'.replay t' = some s'')
    : s.replay (t ++ t') = some s'' := by
  rw [replay_append, h]
  exact h'

theorem next_settled_of_eq {s : Progress} (hs : s.stage = .awaiting p) :
    s.next (.settled p r) = some { s with stage := .ready r } := by
  simp [next, hs]

theorem next_settled_of_ne {s : Progress} (hs : s.stage.awaited ≠ some p) :
    s.next (.settled p r) = some s := by
  obtain ⟨seen, stage⟩ := s
  cases stage with
  | awaiting q =>
    have hne : q ≠ p := fun heq => hs (congrArg some heq)
    simp [next, hne]
  | rest => rfl
  | ready => rfl

theorem next_called {s : Progress} (hs : s.stage = .ready r) :
    s.next .called = some { s with stage := .rest } := by
  simp [next, hs]

theorem calls_of_replay {s s' : Progress} (h : s.replay t = some s')
    (hn : ∀ y ∈ t, y.isObserved = false) (ho : s'.stage.owed = none) :
    t.countP (·.isCall) = if s.stage.endsIn t then 1 else 0 := by
  induction t generalizing s with
  | nil =>
    obtain rfl : s = s' := by simpa using h
    obtain ⟨seen, stage⟩ := s
    cases stage with
    | ready r => simp [Stage.owed] at ho
    | _ => rfl
  | cons y t ih =>
    rw [replay_cons] at h
    have hn' : ∀ z ∈ t, z.isObserved = false := fun z hz => hn z (by simp [hz])
    obtain ⟨seen, stage⟩ := s
    cases y with
    | observed v r => simp [Turn.isObserved] at hn
    | settled p r =>
      cases stage with
      | awaiting q =>
        by_cases hq : q = p
        · simp only [next, hq, if_true, bind_some] at h
          rw [countP_cons, ih h hn']
          simp [Turn.isCall, Stage.endsIn, Turn.settles, hq]
        · simp only [next, hq, if_false, bind_some] at h
          rw [countP_cons, ih h hn']
          simp [Turn.isCall, Stage.endsIn, Turn.settles, Ne.symm hq]
      | rest | ready => simpa [Turn.isCall, Stage.endsIn] using ih h hn'
    | called =>
      cases stage with
      | ready =>
        rw [countP_cons, ih h hn']
        simp [Turn.isCall, Stage.endsIn]
      | _ => simp [next] at h

end Progress

/-! ## Generations that wait -/

def Waiter.generation? (i : AwaitId) : Waiter κ → Option Nat
  | .hook _ => none
  | .block j g => if j = i then some g else none

def generations (i : AwaitId) (ws : List (Waiter κ)) : List Nat := ws.filterMap (·.generation? i)

theorem Waiter.eq_block {y : Waiter κ} (hy : y.generation? i = some k) : y = .block i k := by
  cases y with
  | hook => cases hy
  | block j n =>
    by_cases hj : j = i
    · rw [Waiter.generation?, if_pos hj] at hy
      rw [hj, some.inj hy]
    · rw [Waiter.generation?, if_neg hj] at hy
      cases hy

theorem outcome_wake_stale {h : Host κ υ}
    (hb : w.awaits[i]? = some b) (hk : b.generation ≠ k) (r : Settled) :
    outcome (wake h r (.block i k)) w = (.ok (), w) := by
  rw [wake, outcome_bind, outcome_find, hb]
  exact congrArg (fun y : Act κ υ Unit => outcome y w) (if_neg hk)

/-- Other code may settle a promise unless the block waits for it in its generation `g`. -/
inductive PromiseKept (i : AwaitId) (g : Nat) (q q' : Promise κ) : Prop where
  | same : q'.settled = q.settled → generations i q'.waiters = generations i q.waiters →
      PromiseKept i g q q'
  | settled : q.settled = none → g ∉ generations i q.waiters → q'.settled ≠ none →
      generations i q'.waiters = [] → PromiseKept i g q q'

structure PromisesKept (i : AwaitId) (g : Nat) (ps ps' : Array (Promise κ)) : Prop where
  old : ∀ (p : PromiseId) (q : Promise κ), ps[p]? = some q →
    ∃ q', ps'[p]? = some q' ∧ PromiseKept i g q q'
  new : ∀ (p : PromiseId) (q' : Promise κ), ps'[p]? = some q' → ps[p]? = none →
    generations i q'.waiters = []

theorem PromisesKept.refl : PromisesKept i g ps ps where
  old := fun _ q hq => ⟨q, hq, .same rfl rfl⟩
  new := fun _ _ hq hn => by simp [hq] at hn

theorem PromiseKept.trans (h : PromiseKept i g q q') (h' : PromiseKept i g q' q'') :
    PromiseKept i g q q'' := by
  cases h with
  | same hs hg =>
    cases h' with
    | same hs' hg' => exact .same (hs'.trans hs) (hg'.trans hg)
    | settled ho hn hs' hg' => exact .settled (hs.symm.trans ho) (hg ▸ hn) hs' hg'
  | settled ho hn hs hg =>
    cases h' with
    | same hs' hg' => exact .settled ho hn (hs' ▸ hs) (hg'.trans hg)
    | settled ho' _ _ _ => exact absurd ho' hs

theorem PromisesKept.trans (h : PromisesKept i g ps ps') (h' : PromisesKept i g ps' ps'') :
    PromisesKept i g ps ps'' where
  old := by
    intro p q hq
    obtain ⟨q', hq', hk⟩ := h.old p q hq
    obtain ⟨q'', hq'', hk'⟩ := h'.old p q' hq'
    exact ⟨q'', hq'', hk.trans hk'⟩
  new := by
    intro p q'' hq'' hn
    cases hq' : ps'[p]? with
    | none => exact h'.new p q'' hq'' hq'
    | some q' =>
      have hnil := h.new p q' hq' hn
      obtain ⟨_, heq, hk⟩ := h'.old p q' hq'
      obtain rfl := mem_unique hq'' heq
      cases hk with
      | same _ hg => exact hg.trans hnil
      | settled _ _ _ hg => exact hg

theorem PromisesKept.size_le (h : PromisesKept i g ps ps') (hp : p < ps.size) : p < ps'.size := by
  obtain ⟨q', hq', -⟩ := h.old p ps[p] (Array.getElem?_eq_getElem hp)
  exact (Array.getElem?_eq_some_iff.mp hq').1

/-- In its generation `g`, the block waits for `awaited` and for nothing else. -/
structure Waits (i : AwaitId) (g : Nat) (awaited : Option PromiseId) (ps : Array (Promise κ)) :
    Prop where
  past : ∀ (p : PromiseId) (q : Promise κ), ps[p]? = some q → ∀ k ∈ generations i q.waiters, k ≤ g
  count : ∀ (p : PromiseId) (q : Promise κ), ps[p]? = some q →
    (generations i q.waiters).count g = if awaited = some p then 1 else 0
  unsettled : ∀ (p : PromiseId), awaited = some p → ∃ q, ps[p]? = some q ∧ q.settled = none

namespace Waits

variable {i : AwaitId} {g : Nat} {awaited : Option PromiseId} {ps ps' : Array (Promise κ)}

section

variable (hw : Waits i g awaited ps)
include hw

theorem mem_iff (hq : ps[p]? = some q) : g ∈ generations i q.waiters ↔ awaited = some p := by
  rw [← count_pos_iff, hw.count p q hq]
  split <;> simp_all

theorem kept (hk : PromisesKept i g ps ps') : Waits i g awaited ps' := by
  constructor
  · intro p q' hq' k hm
    cases hq : ps[p]? with
    | none =>
      rw [hk.new p q' hq' hq] at hm
      cases hm
    | some q =>
      obtain ⟨_, heq, hkept⟩ := hk.old p q hq
      obtain rfl := mem_unique hq' heq
      cases hkept with
      | same _ hg => exact hw.past p q hq k (hg ▸ hm)
      | settled _ _ _ hg =>
        rw [hg] at hm
        cases hm
  · intro p q' hq'
    cases hq : ps[p]? with
    | none =>
      have hne : awaited ≠ some p := by
        intro ha
        obtain ⟨_, hsome, -⟩ := hw.unsettled p ha
        rw [hq] at hsome
        cases hsome
      rw [hk.new p q' hq' hq, if_neg hne]
      rfl
    | some q =>
      obtain ⟨_, heq, hkept⟩ := hk.old p q hq
      obtain rfl := mem_unique hq' heq
      cases hkept with
      | same _ hg => rw [hg, hw.count p q hq]
      | settled _ hn _ hg =>
        rw [hg, if_neg fun ha => hn ((hw.mem_iff hq).mpr ha)]
        rfl
  · intro p ha
    obtain ⟨q, hq, hs⟩ := hw.unsettled p ha
    obtain ⟨q', hq', hkept⟩ := hk.old p q hq
    -- a waiter of this generation keeps its promise open
    cases hkept with
    | same hs' _ => exact ⟨q', hq', hs'.trans hs⟩
    | settled _ hn _ _ => exact absurd ((hw.mem_iff hq).mpr ha) hn

theorem result?_kept (hk : PromisesKept i g ps ps')
    (hp : awaited = some p ∨ (result? ps p).isSome) : result? ps' p = result? ps p := by
  cases hq : ps[p]? with
  | none =>
    rcases hp with ha | hr
    · obtain ⟨_, hsome, -⟩ := hw.unsettled p ha
      rw [hq] at hsome
      cases hsome
    · simp [result?, hq] at hr
  | some q =>
    obtain ⟨q', hq', hkept⟩ := hk.old p q hq
    cases hkept with
    | same hs _ => simp [result?, hq, hq', hs]
    | settled ho hn _ _ =>
      rcases hp with ha | hr
      · exact absurd ((hw.mem_iff hq).mpr ha) hn
      · simp [result?, hq, ho] at hr

theorem renew : Waits i (g + 1) none ps where
  past := fun p q hq k hk => Nat.le_succ_of_le (hw.past p q hq k hk)
  count := by
    intro p q hq
    rw [if_neg (by simp), count_eq_zero]
    intro hm
    exact Nat.not_succ_le_self g (hw.past p q hq _ hm)
  unsettled := by simp

end

end Waits

/-- The world in which a promise has been settled and nothing has been told. -/
def World.settleAt (w : World κ υ) (p : PromiseId) (r : Settled) : World κ υ :=
  { w with promises := w.promises.modify p fun q => { q with settled := some r, waiters := [] } }

def World.enlist (w : World κ υ) (p : PromiseId) (y : Waiter κ) : World κ υ :=
  { w with promises := w.promises.modify p fun q => { q with waiters := q.waiters ++ [y] } }

def World.renew (w : World κ υ) (i : AwaitId) : World κ υ :=
  { w with awaits := w.awaits.modify i fun b => { b with generation := b.generation + 1 } }

section Updates

variable {stop : Stop → World κ υ → Prop} {w : World κ υ} {post : Unit → World κ υ → Prop}

theorem Meets.remember_iff : Meets stop (updateWatcher i fun c => { c with value := v }) w post ↔
      post () (w.remember i v) := Iff.rfl

theorem Meets.renew_iff :
    Meets stop (updateAwait i fun b => { b with generation := b.generation + 1 }) w post ↔
      post () (w.renew i) := Iff.rfl

end Updates

theorem result?_settleAt {w : World κ υ} (hp : p < w.promises.size) :
    result? (w.settleAt p r).promises k = if k = p then some r else result? w.promises k := by
  by_cases hk : k = p
  · subst hk
    have hq : w.promises[k]? = some w.promises[k] := Array.getElem?_eq_getElem hp
    simp only [settleAt, result?, Array.getElem?_modify, hq, if_true, map_some,
      bind_some]
  · simp [settleAt, result?, Array.getElem?_modify, Ne.symm hk, hk]

theorem result?_enlist {w : World κ υ} :
    result? (w.enlist p y).promises k = result? w.promises k := by
  by_cases hk : p = k
  · cases hq : w.promises[p]? <;> simp_all [enlist, result?, Array.getElem?_modify]
  · simp [enlist, result?, Array.getElem?_modify, hk]

namespace Waits

variable {i : AwaitId} {g : Nat} {awaited : Option PromiseId} {w : World κ υ}

theorem settleAt (hw : Waits i g awaited w.promises) (p : PromiseId) (r : Settled) :
    Waits i g (if awaited = some p then none else awaited) (w.settleAt p r).promises := by
  have hsettled {q : Promise κ} (hq : (w.settleAt p r).promises[p]? = some q) :
      q = { settled := some r } := by
    obtain ⟨_, rfl⟩ : (∃ q₀, w.promises[p]? = some q₀) ∧ { settled := some r } = q := by
      simpa [World.settleAt, Array.getElem?_modify] using hq
    rfl
  constructor
  · intro k q hq
    by_cases hk : p = k
    · subst hk
      simp [generations, hsettled hq]
    · rw [World.settleAt, Array.getElem?_modify, if_neg hk] at hq
      exact hw.past k q hq
  · intro k q hq
    by_cases hk : p = k
    · subst hk
      by_cases ha : awaited = some p <;> simp [generations, hsettled hq, ha]
    · rw [World.settleAt, Array.getElem?_modify, if_neg hk] at hq
      rw [hw.count k q hq]
      by_cases ha : awaited = some p
      · simp [ha, hk]
      · simp [ha]
  · intro k ha
    have hne : awaited ≠ some p := by
      rintro rfl
      simp at ha
    rw [if_neg hne] at ha
    have hk : p ≠ k := by
      rintro rfl
      exact hne ha
    obtain ⟨q, hq, hs⟩ := hw.unsettled k ha
    refine ⟨q, ?_, hs⟩
    rw [World.settleAt, Array.getElem?_modify, if_neg hk, hq]

theorem enlist (hw : Waits i g none w.promises) (hq : w.promises[p]? = some q)
    (hs : q.settled = none) : Waits i g (some p) (w.enlist p (.block i g)).promises := by
  have hnew : (w.enlist p (.block i g)).promises[p]? =
      some { q with waiters := q.waiters ++ [.block i g] } := by
    simp [World.enlist, Array.getElem?_modify, hq]
  have hgen : generations i (q.waiters ++ [.block i g]) = generations i q.waiters ++ [g] := by
    simp [generations, Waiter.generation?]
  constructor
  · intro k q' hq' n hn
    by_cases hk : p = k
    · subst hk
      obtain rfl := mem_unique hnew hq'
      rw [hgen, mem_append, mem_singleton] at hn
      rcases hn with hn | rfl
      · exact hw.past p q hq n hn
      · exact le_rfl
    · rw [World.enlist, Array.getElem?_modify, if_neg hk] at hq'
      exact hw.past k q' hq' n hn
  · intro k q' hq'
    by_cases hk : p = k
    · subst hk
      obtain rfl := mem_unique hnew hq'
      rw [hgen, count_append, hw.count p q hq]
      simp
    · rw [World.enlist, Array.getElem?_modify, if_neg hk] at hq'
      rw [hw.count k q' hq']
      simp [hk]
  · intro k hk
    obtain rfl := some.inj hk
    exact ⟨_, hnew, hs⟩

end Waits

/-! ## What a block shows -/

/-- A block, the watcher that takes its values, and where it shows them. -/
structure Awaiter (κ : Type) where
  id : AwaitId
  block : AwaitBlock κ
  watcher : WatcherId
  watch : Watcher κ
  owner : DetectorId
  label : NodeId
  parent : NodeId
  acts : watch.action = .awaitValue id

def Awaiter.site (x : Awaiter κ) : Site where
  point := x.block.point
  owner := x.owner
  label := x.label
  parent := x.parent
  templates := x.block.branches.map (·.template)

/-- From `w` to `w'` code has run that neither takes a value for the block nor settles the promise
that it waits for. -/
structure Untouched (x : Awaiter κ) (w w' : World κ υ) : Prop where
  block : w'.awaits[x.id]? = w.awaits[x.id]?
  watcher : w'.watchers[x.watcher]? = w.watchers[x.watcher]?
  promises : ∀ b, w.awaits[x.id]? = some b →
    PromisesKept x.id b.generation w.promises w'.promises

theorem Untouched.refl : Untouched x w w :=
  ⟨rfl, rfl, fun _ _ => .refl⟩

theorem Untouched.trans (h : Untouched x w w') (h' : Untouched x w' w'') : Untouched x w w'' where
  block := h'.block.trans h.block
  watcher := h'.watcher.trans h.watcher
  promises := fun b hb => (h.promises b hb).trans (h'.promises b (h.block.trans hb))

theorem Untouched.of_same (h : Untouched x w v) (ha : v'.awaits = v.awaits)
    (hw : v'.watchers = v.watchers) (hp : v'.promises = v.promises) : Untouched x w v' where
  block := ha ▸ h.block
  watcher := hw ▸ h.watcher
  promises := hp ▸ h.promises

variable (x : Awaiter κ) (w : World κ υ) in
/-- The steps of a block itself, and of the digest that checks it. -/
inductive Chore : World κ υ → Prop where
  | arrange (e : Document (Reaction κ)) : Chore { w with document := e }
  | adopt : Returns (newChild x.owner) w c w' → Chore w'
  | release : Returns (removeChild x.owner c) w () w' → Chore w'
  | point (m : Option Mounted) : Chore
      { w with points := w.points.modify x.block.point fun p => { p with mounted := m } }
  | renew : Chore (w.renew x.id)
  | remember (v : Value) : Chore (w.remember x.watcher v)
  | settle (p : PromiseId) (r : Settled) : Chore (w.settleAt p r)
  | enlist (p : PromiseId) (g : Nat) : Chore (w.enlist p (.block x.id g))
  | drain (d : DetectorId) : Chore
      { w with detectors := w.detectors.modify d fun c => { c with onces := [] } }

/-- The code of the branches, when it builds one and when one is destroyed, leaves the block alone
and keeps to the nodes of the branch. -/
structure Tidy (h : Host κ υ) (x : Awaiter κ) (valid : World κ υ → Prop) : Prop where
  upkeep : ∀ w w', valid w → Chore x w w' → valid w'
  build : ∀ br ∈ x.block.branches, ∀ c f v w w', valid w → Follows x.site [] w →
    Returns (h.run br.build (.built c f v)) w () w' →
    valid w' ∧ Untouched x w w' ∧ Clear x.site [] [] w w'
  destroy : ∀ br ∈ x.block.branches, ∀ v m, br.Built h valid v m → x.owner < m.detector →
    ∀ own w w', ends own = m.extent → valid w → Follows x.site own w →
    Returns (destroy h m.detector) w () w' → valid w' ∧ Untouched x w w' ∧
      ∃ own', ends own' = m.extent ∧ Clear x.site own own' w w'

variable (h : Host κ υ) (x : Awaiter κ) (valid : World κ υ → Prop) (st : Stop) (w' : World κ υ) in
inductive Halted : Prop where
  | read (w : World κ υ) : outcome (readSource h x.watch.source) w = (.error st, w') → Halted
  | build (br : Branch κ) (c : DetectorId) (f : NodeId) (v : Option Value) (w : World κ υ) :
      br ∈ x.block.branches → outcome (h.run br.build (.built c f v)) w = (.error st, w') →
      Halted
  | destroy (br : Branch κ) (v : Option Value) (m : Mounted) (w : World κ υ) :
      br ∈ x.block.branches → br.Built h valid v m →
      outcome (destroy h m.detector) w = (.error st, w') → Halted
  | apply (w : World κ υ) : outcome (h.run x.block.apply .plain) w = (.error st, w') → Halted
  | other (r : Settled) (y : Waiter κ) (w : World κ υ) : y.generation? x.id = none →
      outcome (wake h r y) w = (.error st, w') → Halted

def Awaiter.Mounts (x : Awaiter κ) (h : Host κ υ) (valid : World κ υ → Prop)
    (shown : Option (Exhibit κ)) (m : Option Mounted) : Prop :=
  match shown with
  | none => m = none
  | some e => e.branch ∈ x.block.branches ∧ ∃ y, m = some y ∧ e.branch.Built h valid e.value y

/-- In its generation `g` the block shows `shown` and waits for `awaited`. -/
structure Shows (h : Host κ υ) (x : Awaiter κ) (valid : World κ υ → Prop) (a : Around) (g : Nat)
    (shown : Option (Exhibit κ)) (awaited : Option PromiseId) (w : World κ υ) : Prop where
  stands : ∃ m own, Stands x.site a m own w ∧ x.Mounts h valid shown m
  block : w.awaits[x.id]? = some { x.block with generation := g }
  waits : Waits x.id g awaited w.promises
  valid : valid w

section Steps

variable {h : Host κ υ} {x : Awaiter κ} {valid : World κ υ → Prop} {a a' : Around} {g : Nat}
  {shown shown' : Option (Exhibit κ)} {awaited : Option PromiseId} {w w' : World κ υ}

theorem Branch.Built.mono {br : Branch κ} (hb : br.Built h inv v m) (hi : ∀ u, inv u → inv' u) :
    br.Built h inv' v m := by
  obtain ⟨e, f, u, u', hu, hrest⟩ := hb
  exact ⟨e, f, u, u', hi u hu, hrest⟩

theorem Awaiter.Mounts.built (hm : x.Mounts h valid shown (some y)) :
    ∃ br ∈ x.block.branches, ∃ v, br.Built h valid v y := by
  cases shown with
  | none => cases hm
  | some e =>
    obtain ⟨hbr, _, heq, hb⟩ := hm
    obtain rfl := some.inj heq
    exact ⟨e.branch, hbr, e.value, hb⟩

theorem Tidy.upkept (ht : Tidy h x valid) : Upkept x.site fun v => valid v ∧ Untouched x w v where
  arrange := fun v e hv => ⟨ht.upkeep v _ hv.1 (.arrange e), hv.2.of_same rfl rfl rfl⟩
  adopt := by
    rintro v c v' ⟨hv, hu⟩ hret
    refine ⟨ht.upkeep v v' hv (.adopt hret), ?_⟩
    obtain ⟨ds, rfl⟩ := newChild_world hret
    exact hu.of_same rfl rfl rfl
  release := by
    rintro v c v' ⟨hv, hu⟩ hret
    refine ⟨ht.upkeep v v' hv (.release hret), ?_⟩
    cases hret
    exact hu.of_same rfl rfl rfl
  point := fun v m hv => ⟨ht.upkeep v _ hv.1 (.point m), hv.2.of_same rfl rfl rfl⟩

theorem Shows.untouched (hs : Shows h x valid a g shown awaited w) (hu : Untouched x w w')
    (hv : valid w') (hst : ∃ m own, Stands x.site a' m own w' ∧ x.Mounts h valid shown' m) :
    Shows h x valid a' g shown' awaited w' where
  stands := hst
  block := hu.block.trans hs.block
  waits := hs.waits.kept (hu.promises _ hs.block)
  valid := hv

def mountExhibit (h : Host κ υ) (p : PointId) (o : Option (Exhibit κ)) : Act κ υ Unit :=
  o.forM fun e => mountBranch h p e.branch e.value

theorem mountSettled_eq : mountSettled h b r = mountExhibit h b.point (b.closing r) := by
  cases r with
  | fulfilled v => cases hb : b.fulfilled <;> simp [mountSettled, mountExhibit, AwaitBlock.closing, hb]
  | rejected v => cases hb : b.rejected <;> simp [mountSettled, mountExhibit, AwaitBlock.closing, hb]

theorem awaitValue_eq : awaitValue h i v = (do
      unmount h (← find awaits i).point
      updateAwait i fun b => { b with generation := b.generation + 1 }
      let b ← find awaits i
      mountExhibit h b.point (b.opening v)
      match v.promise? with
      | some p => await h p (.block i b.generation)
      | none => pure ()) := by
  have hplain : ∀ b : AwaitBlock κ, b.opening v = b.closing (.fulfilled v) →
      mountSettled h b (.fulfilled v) = mountExhibit h b.point (b.opening v) := by
    intro b hb
    rw [hb, mountSettled_eq]
  have hpending : ∀ (b : AwaitBlock κ) p, (b.pending.forM fun r => mountBranch h b.point r none) =
      mountExhibit h b.point (b.opening (.promise p)) := by
    intro b p
    cases hb : b.pending <;> simp [mountExhibit, AwaitBlock.opening, hb]
  unfold awaitValue
  cases v with
  | promise p => simp only [hpending _ p, Value.promise?]
  | _ => simp only [hplain _ rfl, Value.promise?, bind_pure_unit]

theorem Shows.mount (ht : Tidy h x valid) (hs : Shows h x valid a g none awaited w)
    {o : Option (Exhibit κ)} (ho : ∀ e ∈ o, e.branch ∈ x.block.branches) :
    Meets (Halted h x valid) (mountExhibit h x.block.point o) w fun _ w' =>
      Shows h x valid a g o awaited w' ∧ Untouched x w w' := by
  cases o with
  | none => exact ⟨hs, .refl⟩
  | some e =>
    obtain ⟨m, own, hst, rfl⟩ := hs.stands
    obtain rfl : own = [] := ends_eq_none_iff.mp hst.extent
    have hbr := ho e rfl
    refine (mountBranch_meets ht.upkept hst ⟨hs.valid, .refl⟩
      (mem_map_of_mem hbr) ?_ ?_).mono ?_
    · rintro c f v v' ⟨hv, hu⟩ hf hret
      obtain ⟨hv', hu', hc⟩ := ht.build _ hbr c f _ v v' hv hf hret
      exact ⟨⟨hv', hu.trans hu'⟩, hc⟩
    · intro c f v st v' hstop
      exact .build _ c f _ v hbr hstop
    · rintro _ w' ⟨⟨hv, hu⟩, m, own, hb, hst'⟩
      exact ⟨hs.untouched hu hv ⟨some m, own, hst', hbr, m, rfl, hb.mono fun _ hv => hv.1⟩, hu⟩

section

variable (ht : Tidy h x valid) (hs : Shows h x valid a g shown awaited w)
include ht hs

theorem Shows.unmount : Meets (Halted h x valid) (unmount h x.block.point) w fun _ w' =>
      Shows h x valid a g none awaited w' ∧ Untouched x w w' := by
  obtain ⟨m, own, hst, hm⟩ := hs.stands
  refine (unmount_meets ht.upkept hst ⟨hs.valid, .refl⟩ ?_ ?_).mono ?_
  · rintro y rfl v v' ⟨hv, hu⟩ hf hret
    obtain ⟨br, hbr, value, hb⟩ := hm.built
    obtain ⟨hv', hu', own', hx, hc⟩ :=
      ht.destroy br hbr value y hb (hst.newer y rfl) own v v' hst.extent hv hf hret
    exact ⟨⟨hv', hu.trans hu'⟩, own', hx, hc⟩
  · rintro y rfl v st v' ho
    obtain ⟨br, hbr, value, hb⟩ := hm.built
    exact .destroy br value y v hbr hb ho
  · rintro _ w' ⟨⟨hv, hu⟩, hst'⟩
    exact ⟨hs.untouched hu hv ⟨none, [], hst', rfl⟩, hu⟩

theorem Shows.renew : Shows h x valid a (g + 1) shown none (w.renew x.id) := by
  obtain ⟨m, own, hst, hm⟩ := hs.stands
  refine ⟨⟨m, own, hst.of_same rfl rfl rfl, hm⟩, ?_, hs.waits.renew, ht.upkeep w _ hs.valid .renew⟩
  simp [World.renew, Array.getElem?_modify, hs.block]

theorem Shows.remember
    (v : Value) : Shows h x valid a g shown awaited (w.remember x.watcher v) := by
  obtain ⟨m, own, hst, hm⟩ := hs.stands
  exact ⟨⟨m, own, hst.of_same rfl rfl rfl, hm⟩, hs.block, hs.waits,
    ht.upkeep w _ hs.valid (.remember v)⟩

theorem Shows.settleAt (p : PromiseId) (r : Settled) :
    Shows h x valid a g shown (if awaited = some p then none else awaited) (w.settleAt p r) := by
  obtain ⟨m, own, hst, hm⟩ := hs.stands
  exact ⟨⟨m, own, hst.of_same rfl rfl rfl, hm⟩, hs.block, hs.waits.settleAt p r,
    ht.upkeep w _ hs.valid (.settle p r)⟩

end

theorem Shows.enlist (ht : Tidy h x valid) (hs : Shows h x valid a g shown none w)
    (hq : w.promises[p]? = some q) (hopen : q.settled = none) :
    Shows h x valid a g shown (some p) (w.enlist p (.block x.id g)) := by
  obtain ⟨m, own, hst, hm⟩ := hs.stands
  exact ⟨⟨m, own, hst.of_same rfl rfl rfl, hm⟩, hs.block, hs.waits.enlist hq hopen,
    ht.upkeep w _ hs.valid (.enlist p g)⟩

end Steps

end ReactiveMarkup.Reactive
