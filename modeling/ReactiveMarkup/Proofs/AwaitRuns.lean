import ReactiveMarkup.Proofs.AwaitedValue

/-! # Runs of a block that awaits values

Everything that can happen to such a block: digests take values of its expression, promises are
settled, and the code that runs meanwhile may do either again. A run keeps what is shown in step
with the value taken last.
-/

namespace ReactiveMarkup.Reactive

open List Option Meets Progress

variable {κ υ : Type}

/-! ## Runs -/

/-- From `w` to `w'` code has run that leaves the block alone, though not what is around it. -/
structure Elsewhere (x : Awaiter κ) (a a' : Around) (w w' : World κ υ) : Prop where
  untouched : Untouched x w w'
  stands : ∀ m own, Stands x.site a m own w → ∃ own', Stands x.site a' m own' w'

/-- What is being done: code runs, the waiters of a settled promise are woken in turn, or the block
turns to the value it has just taken. -/
inductive Job (κ : Type) where
  | code
  | wakes (result : Settled) (ws : List (Waiter κ))
  | follow (v : Value)

section

variable (h : Host κ υ) (x : Awaiter κ) (valid : World κ υ → Prop)

/-- A run, with the turns that the block takes in it and what stands around the block. -/
inductive Doing : Job κ → List Turn → Around → World κ υ → Around → World κ υ → Prop where
  | nothing : Doing .code [] a w a w
  | elsewhere : Doing .code t a w b u → Elsewhere x b c u v → valid v → Doing .code t a w c v
  | settled : Doing .code t a w b u → u.promises[p]? = some q → q.settled = none →
      Doing (.wakes r q.waiters) t' b (u.settleAt p r) c v →
      Doing .code (t ++ .settled p r :: t') a w c v
  | observed :
      Doing .code t a w b u → Returns (readSource h x.watch.source) u value u₁ →
      Doing .code t₁ b u c u₁ → u₁.watchers[x.watcher]? = some y →
      x.watch.comparator.changed y.value value = true →
      Returns (unmount h x.block.point) (u₁.remember x.watcher value) () u₂ →
      Returns (mountExhibit h x.block.point (x.block.opening value)) (u₂.renew x.id) () u₃ →
      Doing (.follow value) t₂ c u₃ d v →
      Doing .code
        (t ++ t₁ ++ .observed value (value.promise?.bind (result? u₃.promises)) :: t₂) a w d v
  | plain : value.promise? = none → Doing (.follow value) [] a w a w
  | pending : value.promise? = some p → w.promises[p]? = some q → q.settled = none →
      w.awaits[x.id]? = some b →
      Doing (.follow value) [] a w a (w.enlist p (.block x.id b.generation))
  | ended : value.promise? = some p → result? w.promises p = some r → w.awaits[x.id]? = some b →
      Doing (.wakes r [.block x.id b.generation]) t a w c v → Doing (.follow value) t a w c v
  | done : Doing (.wakes r []) [] a w a w
  | other : y.generation? x.id = none → Returns (wake h r y) w () u → Doing .code t a w b u →
      Doing (.wakes r ys) t' b u c v → Doing (.wakes r (y :: ys)) (t ++ t') a w c v
  | stale : w.awaits[x.id]? = some b → b.generation ≠ g → Doing (.wakes r ys) t a w c v →
      Doing (.wakes r (.block x.id g :: ys)) t a w c v
  | woken : w.awaits[x.id]? = some e → Returns (unmount h x.block.point) w () u₁ →
      Returns (mountSettled h x.block r) u₁ () u₂ → Returns (h.run x.block.apply .plain) u₂ () u₃ →
      Doing .code t a u₂ b u₃ → Doing (.wakes r ys) t' b u₃ c v →
      Doing (.wakes r (.block x.id e.generation :: ys)) (.called :: t ++ t') a w c v

/-! ## What a run keeps -/

/-- What the block shows is what is due, unless it is still to be woken with a result. -/
def Progress.Fits (s : Progress) (b : AwaitBlock κ) (ps : Array (Promise κ))
    (shown : Option (Exhibit κ)) : Prop :=
  match s.stage.owed with
  | none => shown = b.due ps s.seen ∧ s.stage.awaited = outstanding ps s.seen
  | some r => ∃ p, s.seen.bind (·.promise?) = some p ∧ result? ps p = some r

structure Status (a : Around) (s : Progress) (g : Nat) (w : World κ υ) : Prop where
  cached : w.watchers[x.watcher]? = some { x.watch with value := s.seen.getD .undefined }
  shows : ∃ shown, Shows h x valid a g shown s.stage.awaited w ∧ s.Fits x.block w.promises shown

end

variable {h : Host κ υ} {x : Awaiter κ} {valid : World κ υ → Prop} {a a' : Around}
  {g : Nat} {s : Progress} {shown : Option (Exhibit κ)} {w w' : World κ υ}

/-- Either nothing has been taken and nothing is owed that was not before, or all that is owed has
been done. -/
def Later (owed : Option Settled) (g : Nat) (owed' : Option Settled) (g' : Nat) : Prop :=
  g' = g ∧ owed' = owed ∨ g < g' ∧ owed' = none

theorem Later.trans (h : Later o g o' g') (h' : Later o' g' o'' g'') : Later o g o'' g'' := by
  rcases h with ⟨rfl, rfl⟩ | ⟨hlt, rfl⟩
  · exact h'
  · rcases h' with ⟨rfl, rfl⟩ | ⟨hlt', rfl⟩
    · exact .inr ⟨hlt, rfl⟩
    · exact .inr ⟨hlt.trans hlt', rfl⟩

theorem Later.of_none (h : Later none g o g') : o = none := by
  rcases h with ⟨-, ho⟩ | ⟨-, ho⟩ <;> exact ho

theorem Later.le (h : Later o g o' g') : g ≤ g' := by
  rcases h with ⟨rfl, -⟩ | ⟨hlt, -⟩
  · exact le_rfl
  · exact hlt.le

/-- Waiters that have been taken from a promise: the current generation is among them, once, exactly
if the block is to be woken with the result. -/
structure Owing (x : Awaiter κ) (r : Settled) (ws : List (Waiter κ)) (s : Progress) (g : Nat) :
    Prop where
  past : ∀ k ∈ generations x.id ws, k ≤ g
  current : g ∈ generations x.id ws → s.stage = .ready r ∧ (generations x.id ws).count g = 1

def Keeps (h : Host κ υ) (x : Awaiter κ) (valid : World κ υ → Prop) (t : List Turn)
    (a : Around) (w : World κ υ) (a' : Around) (w' : World κ υ) : Job κ → Prop
  | .code => ∀ s g, Status h x valid a s g w → ∃ s' g', s.replay t = some s' ∧
      Status h x valid a' s' g' w' ∧ Later s.stage.owed g s'.stage.owed g'
  | .wakes r ws => ∀ s g, Status h x valid a s g w → Owing x r ws s g → ∃ s' g',
      s.replay t = some s' ∧ Status h x valid a' s' g' w' ∧
      Later (if g ∈ generations x.id ws then none else s.stage.owed) g s'.stage.owed g'
  | .follow v => ∀ g, w.watchers[x.watcher]? = some { x.watch with value := v } →
      Shows h x valid a g (x.block.opening v) none w → ∃ s' g',
      (Progress.mk (some v) (.after v (v.promise?.bind (result? w.promises)))).replay t = some s' ∧
      Status h x valid a' s' g' w' ∧ Later none g s'.stage.owed g'

theorem Progress.Fits.of_results (hf : s.Fits b ps shown)
    (hp : ∀ p, s.seen.bind (·.promise?) = some p → result? ps' p = result? ps p) :
    s.Fits b ps' shown := by
  unfold Progress.Fits at hf ⊢
  split at hf
  · obtain ⟨hdue, hout⟩ := hf
    obtain ⟨hdue', hout'⟩ := due_congr hp
    exact ⟨hdue.trans hdue'.symm, hout.trans hout'.symm⟩
  · obtain ⟨p, hseen, hr⟩ := hf
    exact ⟨p, hseen, (hp p hseen).trans hr⟩

theorem Progress.Fits.awaited_of_seen (hf : s.Fits b ps shown)
    (hp : s.seen.bind (·.promise?) = some p) (hr : result? ps p = none) :
    s.stage.awaited = some p := by
  unfold Progress.Fits at hf
  split at hf
  · rw [hf.2, outstanding, hp, filter_some, hr]
    rfl
  · obtain ⟨q, hq, hsome⟩ := hf
    obtain rfl := mem_unique hq hp
    rw [hr] at hsome
    cases hsome

theorem Progress.Fits.kept (hf : s.Fits b ps shown) (hw : Waits i g s.stage.awaited ps)
    (hk : PromisesKept i g ps ps') : s.Fits b ps' shown := by
  refine hf.of_results fun p hp => hw.result?_kept hk ?_
  cases hr : result? ps p with
  | none => exact .inl (hf.awaited_of_seen hp hr)
  | some r => exact .inr rfl

theorem Status.elsewhere (hs : Status h x valid a s g w) (he : Elsewhere x a a' w w')
    (hv : valid w') : Status h x valid a' s g w' := by
  obtain ⟨shown, hshows, hfits⟩ := hs.shows
  obtain ⟨m, own, hst, hm⟩ := hshows.stands
  obtain ⟨own', hst'⟩ := he.stands m own hst
  exact ⟨he.untouched.watcher.trans hs.cached, shown,
    hshows.untouched he.untouched hv ⟨m, own', hst', hm⟩,
    hfits.kept hshows.waits (he.untouched.promises _ hshows.block)⟩

section

variable (ht : Tidy h x valid) (hs : Status h x valid a s g w)
include ht hs

theorem Status.settleAt (hq : w.promises[p]? = some q) (hopen : q.settled = none) :
    ∃ s', s.next (.settled p r) = some s' ∧ Status h x valid a s' g (w.settleAt p r) ∧
      Owing x r q.waiters s' g ∧
      (if g ∈ generations x.id q.waiters then none else s'.stage.owed) = s.stage.owed := by
  obtain ⟨shown, hshows, hfits⟩ := hs.shows
  have hlt : p < w.promises.size := (Array.getElem?_eq_some_iff.mp hq).1
  have hnone : result? w.promises p = none := by simp [result?, hq, hopen]
  have hmem := hshows.waits.mem_iff hq
  have hcount := hshows.waits.count p q hq
  have hsettled := hshows.settleAt ht p r
  by_cases ha : s.stage.awaited = some p
  · -- the block waits for this promise: it is among the waiters, once
    obtain ⟨seen, stage⟩ := s
    obtain rfl : stage = .awaiting p := by
      cases stage <;> simp_all [Stage.awaited]
    rw [if_pos ha] at hsettled hcount
    have hseen : seen.bind (·.promise?) = some p := promise_of_outstanding hfits.2.symm
    refine ⟨⟨seen, .ready r⟩, next_settled_of_eq rfl, ⟨hs.cached, shown, hsettled, p,
      hseen, by simp [result?_settleAt hlt]⟩, ⟨hshows.waits.past p q hq, fun _ => ⟨rfl, hcount⟩⟩, ?_⟩
    rw [if_pos (hmem.mpr ha)]
    rfl
  · rw [if_neg ha] at hsettled
    have hng : g ∉ generations x.id q.waiters := fun hg => ha (hmem.mp hg)
    refine ⟨s, next_settled_of_ne ha, ⟨hs.cached, shown, hsettled, ?_⟩,
      ⟨hshows.waits.past p q hq, fun hg => absurd hg hng⟩, if_neg hng⟩
    refine hfits.of_results fun k hk => ?_
    rw [result?_settleAt hlt, if_neg]
    rintro rfl
    exact ha (hfits.awaited_of_seen hk hnone)

theorem Status.woken (hr : s.stage = .ready r)
    : Meets (Halted h x valid) (unmount h x.block.point) w fun _ u =>
      Meets (Halted h x valid) (mountSettled h x.block r) u fun _ w' =>
        Status h x valid a { s with stage := .rest } g w' := by
  obtain ⟨shown, hshows, hfits⟩ := hs.shows
  obtain ⟨seen, _⟩ := s
  obtain rfl := hr
  obtain ⟨p, hp, hresult⟩ := hfits
  refine (hshows.unmount ht).mono ?_
  rintro _ u ⟨hempty, hu⟩
  rw [mountSettled_eq]
  refine (hempty.mount ht fun e he => AwaitBlock.mem_branches_of_closing he).mono ?_
  rintro _ w' ⟨hfull, hu'⟩
  have hall := hu.trans hu'
  have hsome : (result? w.promises p).isSome := by simp [hresult]
  have hkept := hshows.waits.result?_kept (hall.promises _ hshows.block) (.inr hsome)
  obtain ⟨hdue, hout⟩ := due_of_result hp (hkept.trans hresult)
  exact ⟨hall.watcher.trans hs.cached, x.block.closing r, hfull, hdue.symm, hout.symm⟩

theorem Status.observed (v : Value) :
    Meets (Halted h x valid) (unmount h x.block.point) (w.remember x.watcher v) fun _ u =>
      (u.renew x.id).awaits[x.id]? = some { x.block with generation := g + 1 } ∧
      Meets (Halted h x valid) (mountExhibit h x.block.point (x.block.opening v)) (u.renew x.id)
        fun _ w' => Shows h x valid a (g + 1) (x.block.opening v) none w' ∧
          w'.watchers[x.watcher]? = some { x.watch with value := v } ∧
          ∀ p < w.promises.size, p < w'.promises.size := by
  obtain ⟨shown, hshows, -⟩ := hs.shows
  have hcached : (w.remember x.watcher v).watchers[x.watcher]? =
      some { x.watch with value := v } := by
    simp [World.remember, Array.getElem?_modify, hs.cached]
  have hmemo := hshows.remember ht v
  refine (hmemo.unmount ht).mono ?_
  rintro _ u ⟨hempty, hu⟩
  have hnew := hempty.renew ht
  refine ⟨hnew.block, ?_⟩
  refine (hnew.mount ht fun e he => AwaitBlock.mem_branches_of_opening he).mono ?_
  rintro _ w' ⟨hfull, hu'⟩
  refine ⟨hfull, hu'.watcher.trans (hu.watcher.trans hcached), fun p hp => ?_⟩
  exact (hu'.promises _ hnew.block).size_le ((hu.promises _ hmemo.block).size_le hp)

end

theorem Status.generation (hs : Status h x valid a s g w) (hb : w.awaits[x.id]? = some b) :
    b.generation = g := by
  obtain ⟨_, hshows, -⟩ := hs.shows
  obtain rfl := mem_unique hshows.block hb
  rfl

theorem generations_cons_of_none (hy : y.generation? i = none) :
    generations i (y :: ys) = generations i ys := by
  simp [generations, hy]

theorem generations_cons_block : generations i (.block i g :: ys) = g :: generations i ys := by
  simp [generations, Waiter.generation?]

/-- A waiter that is not of the block leaves what is owed as it is, or makes it obsolete. -/
theorem Owing.other (ho : Owing x r (y :: ys) s g) (hy : y.generation? x.id = none)
    (hl : Later s.stage.owed g s'.stage.owed g') : Owing x r ys s' g' := by
  obtain ⟨hpast, hcurrent⟩ := ho
  rw [generations_cons_of_none hy] at hpast hcurrent
  refine ⟨fun k hk => (hpast k hk).trans hl.le, fun hg => ?_⟩
  rcases hl with ⟨rfl, howed⟩ | ⟨hlt, -⟩
  · obtain ⟨hstage, hcount⟩ := hcurrent hg
    obtain ⟨_, stage⟩ := s'
    cases stage <;> simp_all [Stage.owed]
  · exact absurd (hpast g' hg) (Nat.not_le.mpr hlt)

theorem Later.other {gens : List Nat} (hl : Later o g o₁ g₁)
    (hl' : Later (if g₁ ∈ gens then none else o₁) g₁ o' g') :
    Later (if g ∈ gens then none else o) g o' g' := by
  rcases hl with ⟨rfl, rfl⟩ | ⟨hlt, rfl⟩
  · exact hl'
  · rw [ite_self] at hl'
    exact .inr ⟨hlt.trans_le hl'.le, hl'.of_none⟩

theorem Owing.woken (ho : Owing x r (.block x.id g :: ys) s g) (hle : g ≤ g') :
    Owing x r ys s' g' ∧ g' ∉ generations x.id ys := by
  obtain ⟨hpast, hcurrent⟩ := ho
  rw [generations_cons_block] at hpast hcurrent
  have hcount := (hcurrent (by simp)).2
  rw [count_cons_self, Nat.add_eq_right, count_eq_zero] at hcount
  have hnot : g' ∉ generations x.id ys := by
    intro hg
    obtain rfl : g' = g := Nat.le_antisymm (hpast g' (by simp [hg])) hle
    exact hcount hg
  exact ⟨⟨fun k hk => (hpast k (by simp [hk])).trans hle, fun hg => absurd hg hnot⟩, hnot⟩

theorem Owing.stale (hk : g ≠ k) :
    (g ∈ generations x.id (.block x.id k :: ys) ↔ g ∈ generations x.id ys) ∧
      (Owing x r (.block x.id k :: ys) s g → Owing x r ys s g) := by
  have hmem : g ∈ generations x.id (.block x.id k :: ys) ↔ g ∈ generations x.id ys := by
    simp [generations_cons_block, hk]
  refine ⟨hmem, fun ho => ⟨fun n hn => ho.past n ?_, fun hg => ?_⟩⟩
  · rw [generations_cons_block]
    exact .tail k hn
  · obtain ⟨hstage, hcount⟩ := ho.current (hmem.mpr hg)
    rw [generations_cons_block, count_cons_of_ne (Ne.symm hk)] at hcount
    exact ⟨hstage, hcount⟩

/-- The induction follows the runs, those inside included, and the invariant is the status, with
what the waiters still to be woken owe to the block. -/
theorem Doing.keeps (ht : Tidy h x valid) {job : Job κ} (hd : Doing h x valid job t a w a' w') :
    Keeps h x valid t a w a' w' job := by
  induction hd with
  | nothing =>
    intro s g hs
    exact ⟨s, g, rfl, hs, .inl ⟨rfl, rfl⟩⟩
  | elsewhere _ he hv ih =>
    intro s g hs
    obtain ⟨s', g', hreplay, hs', hl⟩ := ih s g hs
    exact ⟨s', g', hreplay, hs'.elsewhere he hv, hl⟩
  | settled _ hq hopen _ ih ihw =>
    intro s g hs
    obtain ⟨s₁, g₁, hreplay, hs₁, hl⟩ := ih s g hs
    obtain ⟨s₂, hnext, hs₂, howing, howed⟩ := hs₁.settleAt ht hq hopen
    obtain ⟨s', g', hreplay', hs', hl'⟩ := ihw s₂ g₁ hs₂ howing
    rw [howed] at hl'
    refine ⟨s', g', replay_trans hreplay ?_, hs', hl.trans hl'⟩
    rw [replay_cons, hnext]
    exact hreplay'
  | @observed _ _ _ _ _ value _ _ _ _ _ _ _ _ _ _ _ _ _ _ hempty hfull _ ih ihread ihfollow =>
    intro s g hs
    obtain ⟨s₁, g₁, hreplay₁, hs₁, hl₁⟩ := ih s g hs
    obtain ⟨s₂, g₂, hreplay₂, hs₂, hl₂⟩ := ihread s₁ g₁ hs₁
    have hmeets := hs₂.observed ht value
    rw [of_outcome hempty, of_outcome hfull] at hmeets
    obtain ⟨-, hshows, hcached, -⟩ := hmeets
    obtain ⟨s', g', hreplay, hs', hl⟩ := ihfollow (g₂ + 1) hcached hshows
    have hlt : g < g' := by
      have h₁ := hl₁.le
      have h₂ := hl₂.le
      have h₃ := hl.le
      omega
    refine ⟨s', g', replay_trans (replay_trans hreplay₁ hreplay₂) ?_, hs',
      .inr ⟨hlt, hl.of_none⟩⟩
    exact hreplay
  | @plain value _ w hv =>
    intro g hc hs
    have hopen : value.promise?.bind (result? w.promises) = none := by simp [hv]
    obtain ⟨hdue, hout⟩ := due_of_open hopen
    rw [Stage.after_plain hv]
    exact ⟨_, g, rfl, ⟨hc, _, hs, hdue.symm, (hout.trans hv).symm⟩, .inl ⟨rfl, rfl⟩⟩
  | @pending p q b value _ w hv hq hopen hb =>
    intro g hc hs
    obtain rfl := mem_unique hs.block hb
    have hnone : value.promise?.bind (result? w.promises) = none := by
      simp [hv, result?, hq, hopen]
    have hopen' : value.promise?.bind (result? (w.enlist p (.block x.id g)).promises) = none := by
      rw [hv, bind_some, result?_enlist]
      rwa [hv, bind_some] at hnone
    obtain ⟨hdue, hout⟩ := due_of_open hopen'
    rw [hnone, Stage.after_open hv]
    exact ⟨_, g, rfl, ⟨hc, _, hs.enlist ht hq hopen, hdue.symm, (hout.trans hv).symm⟩,
      .inl ⟨rfl, rfl⟩⟩
  | @ended p r b _ _ w _ _ value hv hr hb _ ih =>
    intro g hc hs
    obtain rfl := mem_unique hs.block hb
    have hgen : generations x.id [(.block x.id g : Waiter κ)] = [g] := generations_cons_block
    have hready : Status h x valid _ ⟨some value, .ready r⟩ g w := ⟨hc, _, hs, p, hv, hr⟩
    obtain ⟨s', g', hreplay, hs', hl⟩ := ih _ g hready
      ⟨by simp [hgen], fun _ => ⟨rfl, by simp [hgen]⟩⟩
    rw [if_pos (by simp [hgen])] at hl
    rw [hv, bind_some, hr, Stage.after_ended hv]
    exact ⟨s', g', hreplay, hs', hl⟩
  | done =>
    intro s g hs _
    exact ⟨s, g, rfl, hs, .inl ⟨rfl, by simp [generations]⟩⟩
  | other hy _ _ _ ih ihw =>
    intro s g hs ho
    obtain ⟨s₁, g₁, hreplay, hs₁, hl⟩ := ih s g hs
    obtain ⟨s', g', hreplay', hs', hl'⟩ := ihw s₁ g₁ hs₁ (ho.other hy hl)
    rw [generations_cons_of_none hy]
    exact ⟨s', g', replay_trans hreplay hreplay', hs', hl.other hl'⟩
  | stale hb hne _ ih =>
    intro s g hs ho
    obtain rfl := hs.generation hb
    obtain ⟨hmem, howing⟩ := Owing.stale hne
    obtain ⟨s', g', hreplay, hs', hl⟩ := ih s _ hs (howing ho)
    simp only [← hmem] at hl
    exact ⟨s', g', hreplay, hs', hl⟩
  | woken hb hempty hfull _ _ _ ih ihw =>
    intro s g hs ho
    obtain rfl := hs.generation hb
    have hready := (ho.current (by simp [generations_cons_block])).1
    have hmeets := hs.woken ht hready
    rw [of_outcome hempty, of_outcome hfull] at hmeets
    obtain ⟨s₁, g₁, hreplay, hs₁, hl⟩ := ih _ _ hmeets
    obtain ⟨howing, hnot⟩ := ho.woken hl.le
    obtain ⟨s', g', hreplay', hs', hl'⟩ := ihw s₁ g₁ hs₁ howing
    rw [if_neg hnot] at hl'
    rw [if_pos (by simp [generations_cons_block])]
    refine ⟨s', g', ?_, hs', hl.trans hl'⟩
    rw [cons_append, replay_cons, next_called hready]
    exact replay_trans hreplay hreplay'

/-! ## Code that runs -/

/-- Wherever the block has got to, what the computation does when it returns is a run. -/
def Runs {α : Type} (h : Host κ υ) (x : Awaiter κ) (valid : World κ υ → Prop) (act : Act κ υ α) :
    Prop :=
  ∀ a s g w v w', Status h x valid a s g w → Returns act w v w' →
    ∃ t a', Doing h x valid .code t a w a' w'

/-- The code of the user: that of the branches leaves the block alone, and all other may take values
for the block and settle promises. A promise that the expression gives exists. -/
structure Abides (h : Host κ υ) (x : Awaiter κ) (valid : World κ υ → Prop) : Prop extends
    Tidy h x valid where
  read : Runs h x valid (readSource h x.watch.source)
  known : ∀ w v w' p, valid w → Returns (readSource h x.watch.source) w v w' →
    v.promise? = some p → p < w'.promises.size
  wake : ∀ r y, y.generation? x.id = none → Runs h x valid (wake h r y)
  plain : ∀ k, Runs h x valid (guarded (h.run k .plain))
  check : ∀ i, i ≠ x.watcher → Runs h x valid (check h i)

theorem Returns.guarded (hret : Returns act w () w') : Returns (guarded act) w () w' := by
  unfold Returns
  rw [outcome_guarded, hret]

theorem Doing.trans (hd : Doing h x valid .code t a w b u) (hd' : Doing h x valid .code t' b u c w')
    : Doing h x valid .code (t ++ t') a w c w' := by
  generalize hjob : Job.code = job at hd'
  induction hd' with
  | nothing => simpa using hd
  | elsewhere _ he hv ih => exact (ih hd hjob).elsewhere he hv
  | settled _ hq hopen hw ih _ =>
    rw [← append_assoc]
    exact (ih hd rfl).settled hq hopen hw
  | observed _ hret hread hy hch hempty hfull hfollow ih _ _ =>
    rw [← append_assoc, ← append_assoc]
    exact (ih hd rfl).observed hret hread hy hch hempty hfull hfollow
  | _ => cases hjob

theorem wake_stale (hs : Status h x valid a s g w) (hk : g ≠ k) :
    Returns (wake h r (.block x.id k)) w () w := by
  obtain ⟨_, hshows, -⟩ := hs.shows
  exact outcome_wake_stale hshows.block hk r

theorem settle_stale (hs : Status h x valid a s g w) (hq : w.promises[p]? = some q)
    (hopen : q.settled = none) (ha : s.stage.awaited ≠ some p)
    (hown : ∀ y ∈ q.waiters, (y.generation? x.id).isSome) (ht : Tidy h x valid) (r : Settled) :
    Returns (settle h p r) w () (w.settleAt p r) := by
  obtain ⟨_, hshows, -⟩ := hs.shows
  have hng : g ∉ generations x.id q.waiters := fun hg => ha ((hshows.waits.mem_iff hq).mp hg)
  obtain ⟨s₁, -, hs₁, -, -⟩ := hs.settleAt ht hq hopen
  have hwakes : ∀ ws : List (Waiter κ), (∀ y ∈ ws, (y.generation? x.id).isSome) →
      g ∉ generations x.id ws → Returns (ws.forM (wake h r)) (w.settleAt p r) () (w.settleAt p r) := by
    intro ws hall hnot
    induction ws with
    | nil => rfl
    | cons y ys ih =>
      obtain ⟨k, hk⟩ := isSome_iff_exists.mp (hall y (by simp))
      obtain rfl := Waiter.eq_block hk
      rw [generations_cons_block, mem_cons, not_or] at hnot
      rw [List.forM, returns_bind]
      exact ⟨(), _, wake_stale hs₁ hnot.1, ih (fun y hy => hall y (by simp [hy])) hnot.2⟩
  unfold settle
  rw [returns_bind]
  refine ⟨q, w, returns_find.mpr ⟨hq, rfl⟩, ?_⟩
  rw [hopen, isNone_none, if_pos rfl, returns_bind]
  exact ⟨(), _, returns_modify.mpr rfl, hwakes q.waiters hown hng⟩

section Code

variable (hu : Abides h x valid) (hs : Status h x valid a s g w)
include hu hs

theorem wake_meets (hr : s.stage = .ready r) :
    Meets (Halted h x valid) (wake h r (.block x.id g)) w fun _ w' => ∃ u₁ u₂ t b,
      Returns (unmount h x.block.point) w () u₁ ∧ Returns (mountSettled h x.block r) u₁ () u₂ ∧
      Returns (h.run x.block.apply .plain) u₂ () w' ∧
      Status h x valid a { s with stage := .rest } g u₂ ∧ Doing h x valid .code t a u₂ b w' := by
  obtain ⟨_, hshows, -⟩ := hs.shows
  have hsame : mountSettled h { x.block with generation := g } r = mountSettled h x.block r := by
    cases r <;> rfl
  unfold wake
  rw [bind_iff, find_iff hshows.block, if_pos rfl, bind_iff]
  refine (hs.woken hu.toTidy hr).and_returns.mono ?_
  rintro _ u₁ ⟨hempty, hmeets⟩
  rw [bind_iff, hsame]
  refine hmeets.and_returns.mono ?_
  rintro _ u₂ ⟨hfull, hs₂⟩
  refine of_returns ?_ fun st v hstop => .apply u₂ hstop
  intro _ w' hret
  obtain ⟨t, b, hd⟩ := hu.plain x.block.apply a _ g u₂ () w' hs₂ hret.guarded
  exact ⟨u₁, u₂, t, b, hempty, hfull, hret, hs₂, hd⟩

theorem wakes_meets (ho : Owing x r ws s g) :
    Meets (Halted h x valid) (ws.forM (wake h r)) w fun _ w' =>
      ∃ t a', Doing h x valid (.wakes r ws) t a w a' w' := by
  induction ws generalizing a s g w with
  | nil => exact ⟨[], a, .done⟩
  | cons y ys ih =>
    rw [List.forM, bind_iff]
    cases hy : y.generation? x.id with
    | none =>
      refine of_returns ?_ fun st v hstop => .other r y w hy hstop
      intro _ u hret
      obtain ⟨t, b, hd⟩ := hu.wake r y hy a s g w () u hs hret
      obtain ⟨s₁, g₁, -, hs₁, hl⟩ := hd.keeps hu.toTidy s g hs
      refine (ih hs₁ (ho.other hy hl)).mono ?_
      rintro _ v ⟨t', c, hd'⟩
      exact ⟨_, c, .other hy hret hd hd'⟩
    | some k =>
      obtain rfl := Waiter.eq_block hy
      obtain ⟨_, hshows, -⟩ := hs.shows
      by_cases hk : g = k
      · subst hk
        have hready := (ho.current (by simp [generations_cons_block])).1
        refine (wake_meets hu hs hready).mono ?_
        rintro _ u ⟨u₁, u₂, t, b, hempty, hfull, hret, hs₂, hd⟩
        obtain ⟨s₁, g₁, -, hs₁, hl⟩ := hd.keeps hu.toTidy _ g hs₂
        refine (ih hs₁ (ho.woken hl.le).1).mono ?_
        rintro _ v ⟨t', c, hd'⟩
        exact ⟨_, c, .woken hshows.block hempty hfull hret hd hd'⟩
      · rw [of_outcome (wake_stale hs hk)]
        refine (ih hs ((Owing.stale hk).2 ho)).mono ?_
        rintro _ v ⟨t, c, hd⟩
        exact ⟨t, c, .stale hshows.block hk hd⟩

theorem settle_meets (hq : w.promises[p]? = some q) (r : Settled) :
    Meets (Halted h x valid) (settle h p r) w fun _ w' =>
      if q.settled.isSome then w' = w
      else ∃ t a', Doing h x valid .code (.settled p r :: t) a w a' w' := by
  unfold settle
  rw [bind_iff, find_iff hq]
  cases hopen : q.settled with
  | some _ => exact rfl
  | none =>
    obtain ⟨s₁, -, hs₁, ho, -⟩ := hs.settleAt hu.toTidy hq hopen
    refine (wakes_meets hu hs₁ ho).mono ?_
    rintro _ w' ⟨t, a', hd⟩
    exact ⟨t, a', Doing.settled .nothing hq hopen hd⟩

omit hs in
theorem follow_meets (hc : w.watchers[x.watcher]? = some { x.watch with value := v })
    (hs : Shows h x valid a g (x.block.opening v) none w)
    (hp : ∀ p, v.promise? = some p → p < w.promises.size) :
    Meets (Halted h x valid) (match v.promise? with
        | some p => await h p (.block x.id g)
        | none => pure ()) w
      fun _ w' => ∃ t a', Doing h x valid (.follow v) t a w a' w' := by
  cases hv : v.promise? with
  | none => exact ⟨[], a, .plain hv⟩
  | some p =>
    obtain ⟨q, hq⟩ : ∃ q, w.promises[p]? = some q := ⟨_, Array.getElem?_eq_getElem (hp p hv)⟩
    simp only [await]
    rw [bind_iff, find_iff hq]
    cases hopen : q.settled with
    | none => exact ⟨[], a, .pending hv hq hopen hs.block⟩
    | some r =>
      have hresult : result? w.promises p = some r := by simp [result?, hq, hopen]
      have hready : Status h x valid a ⟨some v, .ready r⟩ g w := ⟨hc, _, hs, p, hv, hresult⟩
      refine (wake_meets hu hready rfl).mono ?_
      rintro _ w' ⟨u₁, u₂, t, b, hempty, hfull, hret, -, hd⟩
      exact ⟨_, b, .ended hv hresult hs.block (.woken hs.block hempty hfull hret hd .done)⟩

theorem awaitValue_meets (hp : ∀ p, v.promise? = some p → p < w.promises.size) :
    Meets (Halted h x valid) (awaitValue h x.id v) (w.remember x.watcher v) fun _ w' =>
      ∃ u₁ u₂ t b, Returns (unmount h x.block.point) (w.remember x.watcher v) () u₁ ∧
        Returns (mountExhibit h x.block.point (x.block.opening v)) (u₁.renew x.id) () u₂ ∧
        Doing h x valid (.follow v) t a u₂ b w' := by
  obtain ⟨_, hshows, -⟩ := hs.shows
  rw [awaitValue_eq, bind_iff, find_iff (hshows.remember hu.toTidy v).block,
    bind_iff]
  refine (hs.observed hu.toTidy v).and_returns.mono ?_
  rintro _ u₁ ⟨hempty, hblock, hmeets⟩
  rw [bind_iff, renew_iff, bind_iff, find_iff hblock, bind_iff]
  refine hmeets.and_returns.mono ?_
  rintro _ u₂ ⟨hfull, hshows₂, hcached, hsize⟩
  refine (follow_meets hu hcached hshows₂ fun p hv => hsize p (hp p hv)).mono ?_
  rintro _ w' ⟨t, b, hfollow⟩
  exact ⟨u₁, u₂, t, b, hempty, hfull, hfollow⟩

theorem check_meets : Meets (Halted h x valid) (check h x.watcher) w fun _ w' => ∃ v u t b s',
      Returns (readSource h x.watch.source) w v u ∧ Doing h x valid .code t a w b u ∧
      s.replay t = some s' ∧
      if x.watch.comparator.changed (s'.seen.getD .undefined) v then
        ∃ result t' c, Doing h x valid .code (t ++ .observed v result :: t') a w c w'
      else w' = u := by
  obtain ⟨_, hshows, -⟩ := hs.shows
  unfold check
  rw [bind_iff, find_iff hs.cached, bind_iff]
  refine of_returns ?_ fun st u hstop => .read w hstop
  intro v u hret
  obtain ⟨t, b, hd⟩ := hu.read a s g w v u hs hret
  obtain ⟨s', g', hreplay, hs', -⟩ := hd.keeps hu.toTidy s g hs
  rw [bind_iff, find_iff hs'.cached]
  by_cases hch : x.watch.comparator.changed (s'.seen.getD .undefined) v = true
  · rw [if_pos hch, bind_iff, remember_iff, bind_iff]
    simp only [x.acts, perform, pure_iff]
    refine (awaitValue_meets hu hs' fun p hv =>
      hu.known w v u p hshows.valid hret hv).mono ?_
    rintro _ w' ⟨u₁, u₂, t', c, hempty, hfull, hfollow⟩
    refine ⟨v, u, t, b, s', hret, hd, hreplay, ?_⟩
    rw [if_pos hch]
    exact ⟨_, t', c, Doing.observed .nothing hret hd hs'.cached hch hempty hfull hfollow⟩
  · rw [if_neg hch]
    refine ⟨v, u, t, b, s', hret, hd, hreplay, ?_⟩
    rw [if_neg hch]

end Code

end ReactiveMarkup.Reactive
