import ReactiveMarkup.Proofs.AwaitedValue
import ReactiveMarkup.Proofs.RuntimeTraces

/-! # Dead blocks

When its detector is destroyed, a block that awaits values takes no more of them, but it goes on
waiting.
-/

namespace ReactiveMarkup.Reactive

open World Array

variable {κ υ α β : Type}

/-! ## What is left of a block -/

/-- Watchers that take values for the block `i` are listed by no other detector than `o`. -/
structure Attended (i : AwaitId) (o : Option DetectorId) (w : World κ υ) : Prop where
  known : i < w.awaits.size
  listed : ∀ (e : DetectorId) (j : WatcherId) (c : Watcher κ), j ∈ watchersOf w e →
    w.watchers[j]? = some c → c.action = .awaitValue i → o = some e

/-- In its generation `g`, the block waits for an open promise. -/
def Awaits (i : AwaitId) (g : Nat) (w : World κ υ) (p : PromiseId) : Prop :=
  ∃ q, w.promises[p]? = some q ∧ q.settled = none ∧ g ∈ generations i q.waiters

instance {i : AwaitId} {g : Nat} {w : World κ υ} {p : PromiseId} : Decidable (Awaits i g w p) :=
  decidable_of_iff
    (w.promises[p]?.any fun q => q.settled.isNone && (generations i q.waiters).contains g)
    (by simp [Awaits, Option.any_eq_true])

/-- The world with another block in the place of the block `i`, in the same generation. -/
def World.recast (w : World κ υ) (i : AwaitId) (b : AwaitBlock κ) : World κ υ :=
  { w with awaits := w.awaits.modify i fun e => { b with generation := e.generation } }

/-- The block stays as it is and begins to wait for nothing. What is done does not depend on its
branches, its place or what it calls. -/
structure Ignored (i : AwaitId) (g : Nat) (x : Act κ υ α) (w : World κ υ) : Prop where
  block : (outcome x w).2.awaits[i]? = w.awaits[i]?
  awaits : ∀ p, Awaits i g (outcome x w).2 p → Awaits i g w p
  recast : ∀ b, outcome x (w.recast i b) = ((outcome x w).1, (outcome x w).2.recast i b)

/-- No other detector gets hold of the block, and what is settled stays so. Code that is not the
block's own ignores a block that nobody attends to, if it settles no promise that the block waits
for. -/
structure SparesAt (i : AwaitId) (g : Nat) (own : Prop) (x : Act κ υ α) (w : World κ υ) : Prop where
  attended : ∀ o, Attended i o w → Attended i o (outcome x w).2
  unsettled : ∀ p, result? (outcome x w).2.promises p = none → result? w.promises p = none
  ignored : ¬ own → Attended i none w → (∀ b ∈ w.awaits[i]?, b.generation = g) →
    (∀ p, Awaits i g w p → result? (outcome x w).2.promises p = none) → Ignored i g x w

def Spares (i : AwaitId) (own : Prop) (x : Act κ υ α) : Prop := ∀ g w, SparesAt i g own x w

variable {i : AwaitId} {g : Nat} {own : Prop} {x : Act κ υ α} {f : α → Act κ υ β} {w : World κ υ}

/-! ## Sequences -/

theorem SparesAt.of_world (hx : SparesAt i g own x w) {y : Act κ υ β}
    (hy : (outcome y w).2 = (outcome x w).2)
    (hr : ∀ b, outcome x (w.recast i b) = ((outcome x w).1, (outcome x w).2.recast i b) →
      outcome y (w.recast i b) = ((outcome y w).1, (outcome y w).2.recast i b)) :
    SparesAt i g own y w := by
  obtain ⟨hattended, hunsettled, hignored⟩ := hx
  refine ⟨by rwa [hy], by rwa [hy], fun ho hw hg hopen => ?_⟩
  rw [hy] at hopen
  obtain ⟨hblock, hawaits, hrecast⟩ := hignored ho hw hg hopen
  exact ⟨by rwa [hy], by rwa [hy], fun b => hr b (hrecast b)⟩

theorem SparesAt.bind (hx : SparesAt i g own x w)
    (hf : ∀ a u, outcome x w = (.ok a, u) → SparesAt i g own (f a) u) :
    SparesAt i g own (x >>= f) w := by
  rcases hrun : outcome x w with ⟨r, u⟩
  have hbind := outcome_bind x f w
  rw [hrun] at hbind
  cases r with
  | error e =>
    refine hx.of_world (by rw [hbind, hrun]) fun b hb => ?_
    rw [outcome_bind, hb, hrun, hbind]
  | ok a =>
    obtain ⟨hattended, hunsettled, hignored⟩ := hx
    rw [hrun] at hattended hunsettled hignored
    obtain ⟨hattended', hunsettled', hignored'⟩ := hf a u hrun
    refine ⟨fun o hw => ?_, fun p hp => ?_, fun ho hw hg hopen => ?_⟩
    · rw [hbind]
      exact hattended' o (hattended o hw)
    · rw [hbind] at hp
      exact hunsettled p (hunsettled' p hp)
    · rw [hbind] at hopen
      obtain ⟨hblock, hawaits, hrecast⟩ := hignored ho hw hg fun p hp => hunsettled' p (hopen p hp)
      rw [hrun] at hblock hawaits hrecast
      obtain ⟨hblock', hawaits', hrecast'⟩ := hignored' ho (hattended none hw) (hblock ▸ hg)
        fun p hp => hopen p (hawaits p hp)
      refine ⟨?_, fun p hp => hawaits p (hawaits' p ?_), fun b => ?_⟩
      · rw [hbind]
        exact hblock'.trans hblock
      · rwa [hbind] at hp
      · rw [outcome_bind, hrecast, hbind]
        exact hrecast' b

namespace Spares

theorem mono (hx : Spares i own x) (h : own → own') : Spares i own' x :=
  fun g w => ⟨(hx g w).attended, (hx g w).unsettled, fun ho => (hx g w).ignored fun hown => ho (h hown)⟩

theorem bind (hx : Spares i own x) (hf : ∀ a, Spares i own (f a)) : Spares i own (x >>= f) :=
  fun g w => (hx g w).bind fun a u _ => hf a g u

theorem guarded {x : Act κ υ Unit} (hx : Spares i own x) : Spares i own (guarded x) := by
  refine fun g w => (hx g w).of_world (by rw [outcome_guarded_eq]) fun b hb => ?_
  rw [outcome_guarded_eq, hb, outcome_guarded_eq]

theorem observe (r : World κ υ → Except Stop α)
    (hx : ∀ w, outcome x w = (r w, w) := by exact fun _ => rfl)
    (hr : ¬ own → ∀ w b, r (w.recast i b) = r w := by exact fun _ _ _ => rfl) : Spares i own x := by
  intro g w
  have heq := hx w
  refine ⟨?_, ?_, fun ho _ _ _ => ⟨by rw [heq], ?_, fun b => by rw [hx, heq, hr ho]⟩⟩
  all_goals
    rw [heq]
    exact fun _ => id

theorem forM {f : α → Act κ υ Unit} (hf : ∀ a, Spares i own (f a)) :
    ∀ l : List α, Spares i own (l.forM f)
  | [] => observe (fun _ => .ok ())
  | a :: l => (hf a).bind fun _ => forM hf l

end Spares

/-! ## Changes of the world -/

theorem Attended.of_same (h : Attended i o w) (hd : w'.detectors = w.detectors)
    (hw : w'.watchers = w.watchers) (ha : w'.awaits.size = w.awaits.size) : Attended i o w' := by
  refine ⟨ha ▸ h.known, fun e j c hj hc => h.listed e j c ?_ (hw ▸ hc)⟩
  simpa only [watchersOf, hd] using hj

theorem spares_modifyGet
    (hs : ∀ w a, s { w with awaits := a } = ((s w).1, { (s w).2 with awaits := a }))
    (hp : ∀ w, (s w).2.promises = w.promises) (hh : ∀ o w, Attended i o w → Attended i o (s w).2) :
    Spares i own (modifyGet s : Act κ υ α) := by
  intro g w
  have hawaits : (s w).2.awaits = w.awaits := congrArg (fun p => p.2.awaits) (hs w w.awaits)
  have hrun : ∀ w, outcome (modifyGet s : Act κ υ α) w = (.ok (s w).1, (s w).2) := fun _ => rfl
  refine ⟨fun o => hh o w, fun p hopen => ?_, fun _ _ _ _ => ⟨?_, fun p hwait => ?_, fun b => ?_⟩⟩
  · rwa [hrun, hp] at hopen
  · rw [hrun, hawaits]
  · unfold Awaits at hwait
    rwa [hrun, hp] at hwait
  · rw [hrun, hrun, recast, hs, recast, hawaits]

theorem spares_modify (hh : ∀ o w, Attended i o w → Attended i o (s w))
    (hs : ∀ w a, s { w with awaits := a } = { s w with awaits := a } := by exact fun _ _ => rfl)
    (hp : ∀ w, (s w).promises = w.promises := by exact fun _ => rfl) :
    Spares i own (modify s : Act κ υ PUnit) :=
  spares_modifyGet (fun w a => by rw [hs]) hp hh

theorem spares_updateDetector (hs : ∀ c, (s c).watchers.Sublist c.watchers) :
    Spares i own (updateDetector d s : Act κ υ Unit) :=
  spares_modify fun _ _ hw => ⟨hw.known, fun e j c hj =>
    hw.listed e j c ((watchersOf_modify_sublist hs).subset hj)⟩

theorem spares_remember :
    Spares i own (updateWatcher j fun c => { c with value := v } : Act κ υ Unit) := by
  refine spares_modify fun o w hw => ⟨hw.known, ?_⟩
  intro e k c hk hc hact
  rw [getElem?_modify] at hc
  split at hc
  · obtain ⟨c', hc', rfl⟩ := Option.map_eq_some_iff.mp hc
    exact hw.listed e k c' hk hc' hact
  · exact hw.listed e k c hk hc hact

theorem spares_updateScheduler {s : SchedulerId} {f : Scheduler → Scheduler} :
    Spares i own (updateScheduler s f : Act κ υ Unit) :=
  spares_modify fun _ _ hw => hw.of_same rfl rfl rfl

theorem spares_addTask : Spares i own (addTask t : Act κ υ Unit) :=
  spares_modify fun _ _ hw => hw.of_same rfl rfl rfl

theorem spares_find (store : World κ υ → Array α)
    (hs : ¬ own → ∀ w b, (store (w.recast i b))[j]? = (store w)[j]? := by exact fun _ _ _ => rfl) :
    Spares i own (find store j) := by
  refine .observe (fun w => (outcome (find store j) w).1) (fun w => ?_) fun ho w b => ?_
  · rw [outcome_find]
    cases (store w)[j]? <;> rfl
  · rw [outcome_find, outcome_find, hs ho]
    cases (store w)[j]? <;> rfl

theorem spares_newChild (d : DetectorId) : Spares i own (newChild d : Act κ υ DetectorId) := by
  refine (spares_find _).bind fun p =>
    .bind (spares_modifyGet (fun _ _ => rfl) (fun _ => rfl) fun o w hw => ?_) fun _ =>
      .bind (spares_updateDetector fun _ => .refl _) fun c =>
        .observe (fun _ => .ok _)
  refine ⟨hw.known, fun e j c hj => hw.listed e j c ?_⟩
  by_cases he : e = w.detectors.size
  · simp [watchersOf, he] at hj
  · simpa [watchersOf, getElem?_push, he] using hj

/-! ## Promises and blocks -/

theorem spares_findBlock : Spares i (j = i) (find awaits j : Act κ υ (AwaitBlock κ)) :=
  spares_find _ fun hj w b => by
    rw [recast, getElem?_modify, if_neg (Ne.symm hj)]

theorem spares_renew :
    Spares i (j = i) (updateAwait j fun b => { b with generation := b.generation + 1 } :
      Act κ υ Unit) := by
  intro g w
  refine ⟨fun o hw => hw.of_same rfl rfl size_modify, fun p => id, fun hj _ _ _ =>
    ⟨?_, fun p => id, fun b => ?_⟩⟩
  · change (w.renew j).awaits[i]? = w.awaits[i]?
    rw [renew, getElem?_modify, if_neg hj]
  · have hswap : ((w.recast i b).renew j).awaits = ((w.renew j).recast i b).awaits := by
      apply ext_getElem?
      intro k
      simp only [recast, renew, getElem?_modify]
      by_cases hk : j = k
      · have hi : i ≠ k := fun hi => hj (hk.trans hi.symm)
        simp only [if_pos hk, if_neg hi]
      · rw [if_neg hk, if_neg hk]
    exact congrArg (fun a => (Except.ok (), { w with awaits := a })) hswap

theorem spares_enlist : Spares i (y.generation? i ≠ none)
      (updatePromise p fun q => { q with waiters := q.waiters ++ [y] } : Act κ υ Unit) := by
  intro g w
  refine ⟨fun o hw => hw.of_same rfl rfl rfl, fun k hk => ?_, fun hy _ _ _ =>
    ⟨rfl, fun k => ?_, fun b => rfl⟩⟩
  · change result? (w.enlist p y).promises k = none at hk
    rwa [result?_enlist] at hk
  · rintro ⟨q, hq, hopen, hg⟩
    change (w.promises.modify p _)[k]? = some q at hq
    rw [getElem?_modify] at hq
    split at hq
    · obtain ⟨q, hq', rfl⟩ := Option.map_eq_some_iff.mp hq
      refine ⟨q, hq', hopen, ?_⟩
      simpa [generations, not_not.mp hy] using hg
    · exact ⟨q, hq, hopen, hg⟩

theorem Awaits.of_settleAt (h : Awaits i g (w.settleAt p r) k) : Awaits i g w k := by
  obtain ⟨q, hq, hopen, hg⟩ := h
  rw [settleAt, getElem?_modify] at hq
  split at hq
  · obtain ⟨-, -, rfl⟩ := Option.map_eq_some_iff.mp hq
    cases hopen
  · exact ⟨q, hq, hopen, hg⟩

theorem spares_settleAt : Spares i own
    (updatePromise p fun q => { q with settled := some r, waiters := [] } : Act κ υ Unit) := by
  intro g w
  refine ⟨fun o hw => hw.of_same rfl rfl rfl, fun k hk => ?_, fun _ _ _ _ =>
    ⟨rfl, fun k hk => hk.of_settleAt, fun b => rfl⟩⟩
  change result? (w.settleAt p r).promises k = none at hk
  by_cases hp : p < w.promises.size
  · rw [result?_settleAt hp] at hk
    split at hk
    · cases hk
    · exact hk
  · rwa [settleAt, modify_unknown (getElem?_eq_none (Nat.le_of_not_lt hp))] at hk

/-! ## Registration -/

theorem modify_push {a : Array α} (hn : n < a.size) (f : α → α) (x : α) :
    (a.modify n f).push x = (a.push x).modify n f := by
  apply ext_getElem?
  intro j
  simp only [getElem?_push, getElem?_modify, size_modify]
  by_cases hj : j = a.size
  · rw [if_pos hj, if_pos hj, if_neg (hj ▸ hn.ne)]
  · rw [if_neg hj, if_neg hj]

section Registration

variable {d : DetectorId} {label : NodeId} {k : κ} {parts : AwaitParts κ} {apply : κ}

theorem outcome_awaitBlock : outcome (awaitBlock d label k parts apply) w = (.ok (), { w with
      points := w.points.push { owner := d, label }
      awaits := w.awaits.push { parts with point := w.points.size, apply }
      watchers := w.watchers.push { source := .hook k, action := .awaitValue w.awaits.size }
      detectors := w.detectors.modify d fun c =>
        { c with watchers := c.watchers ++ [w.watchers.size] } }) := rfl

theorem listed_awaitBlock (hj : j ∈ watchersOf (outcome (awaitBlock d label k parts apply) w).2 e)
    (hc : (outcome (awaitBlock d label k parts apply) w).2.watchers[j]? = some c) :
    (j ∈ watchersOf w e ∨ e = d) ∧ (j = w.watchers.size ∧ c.action = .awaitValue w.awaits.size ∨
      j ∈ watchersOf w e ∧ w.watchers[j]? = some c) := by
  obtain ⟨new, hnew, hcase⟩ := exists_watchersOf_watch
    { source := .hook k, action := .awaitValue w.awaits.size }
  have hj : j ∈ watchersOf w e ++ new := hnew ▸ hj
  have hnew : j ∈ new → e = d ∧ j = w.watchers.size := by
    rcases hcase with rfl | ⟨he, rfl⟩
    · exact fun h => absurd h List.not_mem_nil
    · exact fun h => ⟨he, List.mem_singleton.mp h⟩
  have hj := (List.mem_append.mp hj).imp_right hnew
  refine ⟨hj.imp_right And.left, ?_⟩
  change (w.watchers.push _)[j]? = some c at hc
  rw [getElem?_push] at hc
  split at hc
  · next hsize =>
    cases hc
    exact .inl ⟨hsize, rfl⟩
  · next hsize => exact .inr ⟨hj.resolve_right fun h => hsize h.2, hc⟩

/-- Detectors list watchers that exist, and these take values for blocks that exist. -/
def Registered (w : World κ υ) : Prop :=
  ∀ d, ∀ j ∈ watchersOf w d, ∃ c, w.watchers[j]? = some c ∧
    ∀ b, c.action = .awaitValue b → b < w.awaits.size

theorem attended_awaitBlock (hw : Registered w) : Attended w.awaits.size (some d)
    (outcome (awaitBlock d label k parts apply) w).2 := by
  refine ⟨(size_push _).symm ▸ Nat.lt_succ_self _, fun e j c hj hc hact => ?_⟩
  obtain ⟨hlist, ⟨hsize, -⟩ | ⟨hj, hc⟩⟩ := listed_awaitBlock hj hc
  · rcases hlist with hj | rfl
    · obtain ⟨c', hc', -⟩ := hw e j hj
      exact absurd (Array.getElem?_eq_some_iff.mp hc').1 hsize.not_lt
    · rfl
  · obtain ⟨c', hc', hknown⟩ := hw e j hj
    cases hc.symm.trans hc'
    exact absurd (hknown _ hact) (Nat.lt_irrefl _)

theorem spares_awaitBlock : Spares i own (awaitBlock d label k parts apply : Act κ υ Unit) := by
  intro g w
  refine ⟨fun o hw => ⟨?_, fun e j c hj hc hact => ?_⟩, fun _ => id, fun _ hw _ _ =>
    ⟨?_, fun _ => id, fun b => ?_⟩⟩
  · exact (size_push _).symm ▸ Nat.lt_succ_of_lt hw.known
  · obtain ⟨-, ⟨-, hown⟩ | ⟨hj, hc⟩⟩ := listed_awaitBlock hj hc
    · cases hown.symm.trans hact
      exact absurd hw.known (Nat.lt_irrefl _)
    · exact hw.listed e j c hj hc hact
  · exact (getElem?_push_lt hw.known).trans (getElem?_eq_getElem hw.known).symm
  · rw [outcome_awaitBlock, outcome_awaitBlock]
    simp only [recast, size_modify, modify_push hw.known]

end Registration

/-! ## Hosts -/

/-- A host with code that spares all blocks: it gets hold of them only by what the runtime offers. -/
structure Discreet (h : Host κ υ) : Prop where
  read : ∀ i k, Spares i False (h.read k)
  key : ∀ i k v n, Spares i False (h.key k v n)
  run : ∀ i k o, Spares i False (h.run k o)
  buildItem : ∀ i k d f n v, Spares i False (h.buildItem k d f n v)
  construct : ∀ i k n o, Spares i False (h.construct k n o)
  options : ∀ i k, Spares i False (h.options k)

variable {h : Host κ υ}

theorem spares_strike {y : Act κ υ Unit} (hy : Spares i own y) :
    Spares i own (updateDetector d (fun c =>
        { c with destroyed := true, watchers := [], preludes := [] }) >>= fun _ => y) ∧
      ∀ w, Attended i (some d) w → Attended i none (outcome (updateDetector d (fun c =>
        { c with destroyed := true, watchers := [], preludes := [] }) >>= fun _ => y) w).2 := by
  have hsub : ∀ c : Detector κ, List.Sublist ([] : List WatcherId) c.watchers := fun _ =>
    List.nil_sublist _
  refine ⟨.bind (spares_updateDetector hsub) fun _ => hy, fun w hw => ?_⟩
  refine (hy 0 _).attended none ⟨hw.known, fun e j c hj hc hact => ?_⟩
  have hold := (watchersOf_modify_sublist hsub).subset hj
  obtain rfl := Option.some.inj (hw.listed e j c hold hc hact)
  cases hd : w.detectors[d]? <;> simp [watchersOf, getElem?_modify, hd] at hj

namespace Discreet

variable (hh : Discreet h)

include hh

theorem destroyTo (n : Nat) : ∀ d, Spares i own (destroyTo h n d) ∧
    (0 < n → ∀ w, Attended i (some d) w → Attended i none (outcome (destroyTo h n d) w).2) := by
  induction n with
  | zero =>
    exact fun d => ⟨.observe (fun _ => .error .exhausted), fun hn => absurd hn (Nat.lt_irrefl 0)⟩
  | succ n ih =>
    intro d
    refine And.imp_right (fun hend _ => hend) (spares_strike ?_)
    refine (spares_find _).bind fun c =>
      .bind (spares_updateDetector fun _ => .refl _) fun _ =>
        .bind (.forM (fun k => .guarded ?_) _) fun _ => (spares_find _).bind fun _ =>
          .bind (spares_updateDetector fun _ => .refl _) fun _ => .forM (fun e => (ih e).1) _
    cases k with
    | hook k => exact (hh.run i k _).mono False.elim
    | removeListener node l =>
      exact spares_modify fun _ _ hw => hw.of_same rfl rfl rfl
    | destroy j => exact (ih j).1

theorem closed (i : AwaitId) (own : Prop) : Closed (Spares i own) h where
  pure := fun a => .observe (fun _ => .ok a)
  stop := fun e => .observe (fun _ => .error e)
  bind := fun hx hf => hx.bind hf
  guarded := fun hx => hx.guarded
  look := fun π hπ => .observe (fun w => .ok (π w)) (fun _ => rfl) fun _ w b =>
    congrArg Except.ok (hπ w _)
  elsewhere := fun f hf hcore => by
    have hsame := fun w => Prod.mk.inj (hcore w)
    refine spares_modify (fun o w hw => hw.of_same (hsame w).1 ?_ ?_) hf fun w => ?_
    · exact (Prod.mk.inj (hsame w).2).1
    · exact congrArg (fun v => v.awaits.size) (hf w w.awaits)
    · exact (Prod.mk.inj (Prod.mk.inj (hsame w).2).2).1
  amend := fun d f _ hw _ _ => spares_updateDetector fun c => by rw [hw]
  newChild := spares_newChild
  removeChild := fun p c => spares_updateDetector fun _ => .refl _
  destroy := fun d => .bind (x := get >>= fun w => Pure.pure w.detectors.size)
    (.observe (fun w => .ok w.detectors.size)) fun n =>
      (hh.destroyTo (n + slack) d).1
  planRender := fun _ => spares_addTask
  read := fun k => (hh.read i k).mono False.elim
  key := fun k v n => (hh.key i k v n).mono False.elim
  run := fun k o => (hh.run i k o).mono False.elim
  buildItem := fun k d f n v => (hh.buildItem i k d f n v).mono False.elim
  construct := fun k n o => (hh.construct i k n o).mono False.elim
  options := fun k => (hh.options i k).mono False.elim

/-! ## Waking -/

theorem wake : Spares i (y.generation? i ≠ none) (wake h r y) := by
  refine (hh.closed i _).wake fun j g hy => spares_findBlock.mono fun hj => ?_
  simp [hy, Waiter.generation?, hj]

theorem awaitValue : Spares i (j = i) (awaitValue h j v) := by
  refine (hh.closed i _).awaitValue spares_findBlock spares_renew fun p g =>
    spares_enlist.mono ?_
  simp [Waiter.generation?]

theorem wake_stale (hk : g ≠ k) : SparesAt i g False (Reactive.wake h r (.block i k)) w := by
  obtain ⟨hattended, hunsettled, -⟩ := hh.wake g w
  refine ⟨hattended, hunsettled, fun _ hw hg _ => ?_⟩
  obtain ⟨b, hb⟩ : ∃ b, w.awaits[i]? = some b := ⟨_, getElem?_eq_getElem hw.known⟩
  obtain rfl := hg b hb
  have hrun := outcome_wake_stale (h := h) hb hk r
  refine ⟨by rw [hrun], by rw [hrun]; exact fun _ => id, fun c => ?_⟩
  have hc : (w.recast i c).awaits[i]? = some { c with generation := b.generation } := by
    simp [recast, getElem?_modify, hb]
  rw [hrun, outcome_wake_stale hc hk]

theorem wakes (hws : g ∉ generations i ws) :
    ∀ w, SparesAt i g False (ws.forM (Reactive.wake h r)) w := by
  induction ws with
  | nil => exact (hh.closed i False).pure () g
  | cons y ws ih =>
    intro w
    rw [generations, List.filterMap_cons] at hws
    cases hy : y.generation? i with
    | none =>
      rw [hy] at hws
      exact (hh.wake.mono (absurd hy) g w).bind fun _ u _ => ih hws u
    | some k =>
      rw [hy] at hws
      obtain ⟨hk, hrest⟩ := not_or.mp (mt List.mem_cons.mpr hws)
      obtain rfl := Waiter.eq_block hy
      exact (hh.wake_stale hk).bind fun _ u _ => ih hrest u

theorem settle : Spares i False (settle h p r) := by
  intro g w
  refine ((hh.closed i False).find (fun _ _ => rfl) g w).bind fun q u hq => ?_
  obtain ⟨hq, rfl⟩ := returns_find.mp hq
  split
  · next hopen =>
    have hopen : q.settled = none := Option.isNone_iff_eq_none.mp hopen
    have hwakes : Spares i True (q.waiters.forM (Reactive.wake h r)) :=
      .forM (fun y => hh.wake.mono fun _ => trivial) _
    obtain ⟨hattended, hunsettled, -⟩ := spares_settleAt.bind (fun _ => hwakes) g u
    refine ⟨hattended, hunsettled, fun ho hw hg hend => ?_⟩
    have hnot : g ∉ generations i q.waiters := fun hmem => by
      have hback := (hwakes g (u.settleAt p r)).unsettled p (hend p ⟨q, hq, hopen, hmem⟩)
      rw [result?_settleAt (Array.getElem?_eq_some_iff.mp hq).1, if_pos rfl] at hback
      cases hback
    refine ((spares_settleAt g u).bind fun _ v _ => hh.wakes hnot v).ignored ho hw hg ?_
    rwa [updatePromise, outcome_modify_bind]
  · exact (hh.closed i False).pure () g u

/-! ## Digests and the event loop -/

theorem checked (hj : j ∈ watchersOf w d) : SparesAt i g False (Reactive.check h j) w := by
  -- what the watcher does when its record has been found
  have hrest : ∀ c : Watcher κ, Spares i (c.action = .awaitValue i) (do
      let next ← readSource h c.source
      let before := (← find watchers j).value
      if c.comparator.changed before next then
        updateWatcher j fun c => { c with value := next }
        perform h c.action next
        return !c.readOnly
      else return false) := by
    intro c
    have hP := hh.closed i (c.action = .awaitValue i)
    refine hP.readSource.bind fun v => hP.found (fun _ _ => rfl) fun _ => ?_
    dsimp only
    split
    · refine spares_remember.bind fun _ => .bind ?_ fun _ => hP.pure _
      exact hP.perform fun b hb => hh.awaitValue.mono fun hi => hi ▸ hb
    · exact hP.pure _
  refine ((hh.closed i False).find (fun _ _ => rfl) g w).bind fun c u hc => ?_
  obtain ⟨hc, rfl⟩ := returns_find.mp hc
  obtain ⟨hattended, hunsettled, hignored⟩ := hrest c g u
  refine ⟨hattended, hunsettled, fun _ hw => hignored (fun hact => ?_) hw⟩
  cases hw.listed d j c hj hc hact

theorem checkFrom (d : DetectorId) (position n : Nat) :
    ∀ index last, Spares i False (checkFrom h d position n index last) := by
  have hP := hh.closed i False
  induction n with
  | zero => exact fun index last => hP.stop _
  | succ n ih =>
    intro index last g w
    refine (hP.find (fun _ _ => rfl) g w).bind fun c u hc => ?_
    obtain ⟨hc, rfl⟩ := returns_find.mp hc
    cases hj : c.watchers[index]? with
    | none => exact hP.pure last g u
    | some j =>
      have hmem : j ∈ watchersOf u d := by
        rw [watchersOf, hc]
        exact List.mem_of_getElem? hj
      refine (hh.checked hmem).bind fun counts v _ => ?_
      cases counts with
      | false => exact (hP.pure _).bind (fun _ => ih _ _) g v
      | true => exact (hP.found (fun _ _ => rfl) fun _ => (hP.pure _).bind fun _ => ih _ _) g v

theorem runOnces (root : DetectorId) : Spares i False (runOnces h root) :=
  (spares_find _).bind fun _ =>
    .bind (spares_updateDetector fun _ => .refl _) fun _ =>
      .forM (fun k => (hh.run i k _).guarded) _

end Discreet

/-! ## Histories -/

inductive Happening (κ : Type) where
  | move (m : Move κ)
  | apply (s : SchedulerId)
  | register (d : DetectorId) (label : NodeId) (k : κ) (parts : AwaitParts κ) (a : κ)
  | follow (p : PromiseId) (k : κ)
  | settle (p : PromiseId) (r : Settled)
  | destroy (d : DetectorId)

def Happening.run (h : Host κ υ) : Happening κ → Act κ υ Unit
  | .move m => m.run h
  | .apply s => Reactive.apply s
  | .register d label k parts a => awaitBlock d label k parts a
  | .follow p k => await h p (.hook k)
  | .settle p r => Reactive.settle h p r
  | .destroy d => Reactive.destroy h d

def happen (h : Host κ υ) (l : List (Happening κ)) : Act κ υ Unit :=
  l.forM fun e => guarded (e.run h)

theorem Discreet.happen (hh : Discreet h) (l : List (Happening κ)) :
    Spares i False (happen h l) := by
  have hP := hh.closed i False
  refine .forM (fun e => .guarded ?_) l
  cases e with
  | move m =>
    refine hP.move hh.checkFrom hh.runOnces (fun f hf hs => ?_)
    refine spares_modify (fun _ w hw => hw.of_same (hs w).1 (hs w).2.1 ?_) hf fun w => (hs w).2.2
    exact congrArg (fun v => v.awaits.size) (hf w w.awaits)
  | apply s =>
    refine hP.found (fun _ _ => rfl) fun c => ?_
    split
    · exact spares_updateScheduler.bind fun _ => spares_addTask
    · exact hP.pure _
  | register d label k parts a => exact spares_awaitBlock
  | follow p k =>
    refine hP.found (fun _ _ => rfl) fun q => ?_
    split
    · exact hh.run i k _
    · exact spares_enlist.mono fun hk => hk rfl
  | settle p r => exact hh.settle
  | destroy d => exact hP.destroy d

theorem outcome_destroy :
    outcome (destroy h d) w = outcome (destroyTo h (w.detectors.size + slack) d) w := by
  rw [destroy, outcome_bind]
  rfl

/-- A block whose detector has been destroyed is dead to everything but a promise that it waits for
at that time. As long as no such promise is settled, it takes no value and begins to wait for
nothing, and everything comes out as with any other branches, place and callback in the block. -/
theorem destroyed_block_is_ignored (hh : Discreet h) (hw : Registered w) (d : DetectorId)
    (label : NodeId) (k : κ) (parts : AwaitParts κ) (apply : κ) (before after : List (Happening κ))
    {u v : World κ υ} (hu : (outcome (awaitBlock d label k parts apply) w).2 = u)
    (hv : (outcome (destroy h d) (outcome (happen h before) u).2).2 = v) {b : AwaitBlock κ}
    (hb : v.awaits[w.awaits.size]? = some b)
    (hopen : ∀ p, Awaits w.awaits.size b.generation v p →
      result? (outcome (happen h after) v).2.promises p = none) :
    Ignored w.awaits.size b.generation (happen h after) v := by
  have hstart : Attended w.awaits.size (some d) u := hu ▸ attended_awaitBlock hw
  have hend := (hh.happen before 0 u).attended _ hstart
  have hdead : Attended w.awaits.size none v := by
    obtain ⟨n, hn⟩ := exists_slack (outcome (happen h before) u).2.detectors.size
    have hstrike := (@Discreet.destroyTo _ _ w.awaits.size False _ hh (n + 1 + 1) d).2
    rw [← hv, outcome_destroy, hn]
    exact hstrike (Nat.succ_pos _) _ hend
  refine (hh.happen after b.generation v).ignored id hdead (fun c hc => ?_) hopen
  rw [hb] at hc
  exact congrArg AwaitBlock.generation (Option.some.inj hc).symm

namespace Waiting

def host : Host Unit Unit where
  read _ := pure (.promise 0)
  key _ v _ := pure v
  run _ _ := pure ()
  buildItem _ _ _ _ _ := pure ()
  attach _ _ := throw .failed
  construct _ _ _ := pure 0
  options _ := pure {}
  page _ := []

theorem discreet_host : Discreet host := by
  constructor <;> intros <;> exact .observe (fun _ => .ok _)

def world : World Unit Unit := { user := (), detectors := #[{ root := 0 }], promises := #[{}, {}] }

theorem registered_world : Registered world := by
  intro d j hj
  by_cases hd : d = 0
  · subst hd
    cases hj
  · rw [watchersOf, getElem?_eq_none (Nat.one_le_iff_ne_zero.mpr hd)] at hj
    cases hj

/-- A block has taken a promise that is open, and its detector has been destroyed. -/
def dead : World Unit Unit :=
  (outcome (destroy host 0) (outcome (happen host [.move (.digest 0 none)])
    (outcome (awaitBlock 0 0 () ⟨none, none, none⟩ ()) world).2).2).2

end Waiting

open Waiting in
/-- The second promise is settled while the dead block waits for the first one. -/
theorem destroyed_block_is_ignored_waiting :
    Awaits 0 1 dead 0 ∧ Ignored 0 1 (happen host [.settle 1 (.fulfilled .undefined)]) dead := by
  have hblock : dead.awaits[0]?.map (·.generation) = some 1 := by decide +kernel
  obtain ⟨b, hb, hg⟩ := Option.map_eq_some_iff.mp hblock
  have hignored := destroyed_block_is_ignored discreet_host registered_world 0 0 ()
    ⟨none, none, none⟩ () [.move (.digest 0 none)] [.settle 1 (.fulfilled .undefined)] rfl rfl hb
    fun (p : Nat) hp => by
      have hlt : p < dead.promises.size := (Array.getElem?_eq_some_iff.mp hp.choose_spec.1).1
      have hsize : dead.promises.size = 2 := by decide +kernel
      obtain rfl | rfl : p = 0 ∨ p = 1 := by omega
      · exact Option.isNone_iff_eq_none.mp (by decide +kernel)
      · rw [hg] at hp
        exact absurd hp (by decide +kernel)
  rw [hg] at hignored
  exact ⟨by decide +kernel, hignored⟩

end ReactiveMarkup.Reactive
