import ReactiveMarkup.Proofs.Calm
import ReactiveMarkup.Proofs.RuntimeTraces

/-! # Destroyed detectors

What was registered in the tree of a detector is never run again after the detector has been
destroyed, unless a cleanup takes it out of that tree while it is being destroyed.
-/

namespace ReactiveMarkup.Reactive

open List

variable {κ υ : Type} {w u w' : World κ υ} {i : WatcherId} {t d e : DetectorId}
variable {calls : List Frame} {j : Errand κ υ} {tr : List (Moment κ υ)}

/-! ## Watchers that nobody lists -/

structure Unlisted (w : World κ υ) (i : WatcherId) : Prop where
  known : i < w.watchers.size
  nowhere : ∀ d, i ∉ watchersOf w d

theorem Course.unlisted (h : Course w w') (hi : Unlisted w i) : Unlisted w' i :=
  ⟨hi.known.trans_le h.watchers, fun d hd => hi.nowhere d (h.listed d i hi.known hd)⟩

theorem Trail.effects (h : Trail w tr w') : ∀ m ∈ tr, ∃ u, Effect m.event m.world u := by
  induction h with
  | done => exact nofun
  | change _ _ ih => exact ih
  | event he _ ih => exact forall_mem_cons.mpr ⟨⟨_, he⟩, ih⟩

theorem Does.not_act (h : Does calls j w tr w') :
    (∀ m ∈ tr, m.event ≠ .read i) → ∀ m ∈ tr, m.event ≠ .act i := by
  refine h.shape (fun _ _ => nofun) ?_ ?_ (fun ih => ih) ?_ ?_
  · simp_all
  · intro _ _ _ _ _ _ ih ih' hr
    rw [forall_mem_append] at hr ⊢
    exact ⟨ih hr.1, ih' hr.2⟩
  · intro _ _ _ _ _ _ _ ih hr
    simp only [forall_mem_cons, forall_mem_append] at hr ⊢
    refine ⟨nofun, ih hr.2.1, fun heq => ?_, nofun⟩
    obtain rfl := Event.act.inj heq
    exact hr.1 rfl
  · intro _ _ _ _ _ _ _ _ _ _ ih hr
    rw [forall_mem_cons] at hr ⊢
    exact ⟨nofun, ih hr.2⟩

theorem Does.silent_of_unlisted (h : Does calls j w tr w') (hi : Unlisted w i) :
    Unlisted w' i ∧ ∀ m ∈ tr, m.event ≠ .read i ∧ m.event ≠ .act i := by
  obtain ⟨hcourse, hall⟩ := h.trail.course
  have hread : ∀ m ∈ tr, m.event ≠ .read i := by
    intro m hm heq
    obtain ⟨v, he⟩ := h.trail.effects m hm
    rw [heq] at he
    cases he with
    | read hd => exact ((hall m hm).unlisted hi).nowhere _ hd
  exact ⟨hcourse.unlisted hi, fun m hm => ⟨hread m hm, h.not_act hread m hm⟩⟩

theorem Does.within (h : Does calls j w tr w') : ∀ m ∈ tr, calls <:+ m.calls := by
  refine h.shape (fun _ => nofun) (by simp)
    (fun ih ih' => forall_mem_append.mpr ⟨ih, ih'⟩)
    (fun ih m hm => (suffix_cons _ _).trans (ih m hm)) (fun _ ih => ?_)
    fun _ _ ih => forall_mem_cons.mpr ⟨suffix_rfl, ih⟩
  simp only [forall_mem_cons, forall_mem_append]
  exact ⟨suffix_rfl, ih, suffix_rfl, nofun⟩

/-! ## Trees that lose branches -/

section

variable (w : World κ υ)

@[simp] theorem childrenOf_strike : childrenOf (w.strike d) e = childrenOf w e := by
  refine childrenOf_modify_of (fun _ => ?_) d e
  rfl

@[simp] theorem watchersOf_orphan : watchersOf (w.orphan d) e = watchersOf w e := by
  refine watchersOf_modify_of (fun _ => ?_) d e
  rfl

@[simp] theorem watchersOf_release : watchersOf (w.release p c) e = watchersOf w e := by
  refine watchersOf_modify_of (fun _ => ?_) p e
  rfl

@[simp] theorem watchersOf_strike_self : watchersOf (w.strike d) d = [] := by
  cases hd : w.detectors[d]? <;> simp [World.strike, watchersOf, Array.getElem?_modify, hd]

@[simp] theorem childrenOf_orphan_self : childrenOf (w.orphan d) d = [] := by
  cases hd : w.detectors[d]? <;> simp [World.orphan, childrenOf, Array.getElem?_modify, hd]

end

theorem Below.step (h : Below w t d) (he : e ∈ childrenOf w d) : Below w t e := by
  cases hd : w.detectors[d]? with
  | none => simp [childrenOf, hd] at he
  | some c => exact .child d e c h hd (childrenOf_eq hd ▸ he)

theorem watched_iff : Watched w t i ↔ ∃ d, Below w t d ∧ i ∈ watchersOf w d := by
  constructor
  · rintro ⟨d, c, hb, hd, hi⟩
    exact ⟨d, hb, by rwa [watchersOf, hd]⟩
  · rintro ⟨d, hb, hi⟩
    cases hd : w.detectors[d]? with
    | none => simp [watchersOf, hd] at hi
    | some c => exact ⟨d, c, hb, hd, by rwa [watchersOf, hd] at hi⟩

/-- When some edges are cut, what was below a detector still is, or it is below the lower end of a
cut edge. -/
theorem Below.cut {gone : DetectorId → DetectorId → Prop}
    (hkeep : ∀ x y, y ∈ childrenOf w x → y ∈ childrenOf w' x ∨ gone x y) (h : Below w t d) :
    Below w' t d ∨ ∃ x y, y ∈ childrenOf w x ∧ gone x y ∧ Below w' y d := by
  induction h with
  | root => exact .inl .root
  | child x y c _ hc hy ih =>
    have hy : y ∈ childrenOf w x := (childrenOf_eq hc).symm ▸ hy
    rcases hkeep x y hy with hy' | hgone
    · exact ih.imp (·.step hy') fun ⟨a, b, hb, hab, hx⟩ => ⟨a, b, hb, hab, hx.step hy'⟩
    · exact .inr ⟨x, y, hy, hgone, .root⟩

theorem Watched.cut {gone : DetectorId → DetectorId → Prop}
    (hkeep : ∀ x y, y ∈ childrenOf w x → y ∈ childrenOf w' x ∨ gone x y)
    (hlist : ∀ x, i ∈ watchersOf w x → i ∈ watchersOf w' x) (h : Watched w t i) :
    Watched w' t i ∨ ∃ x y, y ∈ childrenOf w x ∧ gone x y ∧ Watched w' y i := by
  obtain ⟨d, hb, hi⟩ := watched_iff.mp h
  rcases hb.cut hkeep with hb | ⟨x, y, hy, hxy, hb⟩
  · exact .inl (watched_iff.mpr ⟨d, hb, hlist d hi⟩)
  · exact .inr ⟨x, y, hy, hxy, watched_iff.mpr ⟨d, hb, hlist d hi⟩⟩

theorem Watched.mono (hkeep : ∀ x y, y ∈ childrenOf w x → y ∈ childrenOf w' x)
    (hlist : ∀ x, i ∈ watchersOf w x → i ∈ watchersOf w' x) (h : Watched w t i) :
    Watched w' t i := by
  have hkeep' : ∀ x y, y ∈ childrenOf w x → y ∈ childrenOf w' x ∨ False := fun x y hy =>
    .inl (hkeep x y hy)
  rcases h.cut hkeep' hlist with h | h
  · exact h
  · obtain ⟨_, _, _, h, _⟩ := h
    exact h.elim

theorem Watched.of_same (hd : w'.detectors = w.detectors) (h : Watched w t i) : Watched w' t i := by
  refine h.mono (fun x y hy => ?_) fun x hx => ?_
  · simpa only [childrenOf, hd] using hy
  · simpa only [watchersOf, hd] using hx

/-- The watcher stays where it was reached from, or nobody lists it any more. -/
def Remains (i : WatcherId) (w w' : World κ υ) : Prop :=
  ∀ t, Watched w t i → Watched w' t i ∨ Unlisted w' i

namespace Remains

theorem trans (h : Remains i w u) (hc : Course u w') (h' : Remains i u w') : Remains i w w' := by
  intro t ht
  rcases h t ht with ht | ht
  · exact h' t ht
  · exact .inr (hc.unlisted ht)

theorem of_adds (hw : Sound w) (h : Adds w w') : Remains i w w' := by
  intro t ht
  refine .inl (ht.mono (fun x y hy => ?_) fun x hx => ?_)
  · exact (h.children x y (hw.newer x y hy).2).mpr hy
  · exact (h.listed x i (hw.stored x i hx)).mpr hx

theorem of_same (hd : w'.detectors = w.detectors) : Remains i w w' :=
  fun _ ht => .inl (ht.of_same hd)

theorem after_same (h : Remains i u w') (hd : u.detectors = w.detectors) : Remains i w w' :=
  fun t ht => h t (ht.of_same hd)

theorem strike (hw : Sound w) : Remains i w (w.strike d) := by
  intro t ht
  have hother : ∀ x, x ≠ d → watchersOf (w.strike d) x = watchersOf w x := fun x hx => by
    simp [World.strike, watchersOf, Array.getElem?_modify, hx.symm]
  obtain ⟨x, hb, hi⟩ := watched_iff.mp ht
  by_cases hx : x = d
  · refine .inr ⟨hw.stored x i hi, fun y hy => ?_⟩
    have hyw : i ∈ watchersOf w y := (Change.strike d w).course.listed y i (hw.stored x i hi) hy
    have hyd : y = d := (hw.owner i y x hyw hi).trans hx
    rw [hyd, watchersOf_strike_self] at hy
    cases hy
  · refine .inl (ht.mono (fun x y hy => by simpa using hy) fun y hy => ?_)
    have hyx : y = x := hw.owner i y x hy hi
    rw [hother y (hyx ▸ hx)]
    exact hy

end Remains

theorem Watched.orphan (h : Watched w t i) :
    Watched (w.orphan d) t i ∨ ∃ c ∈ childrenOf w d, Watched (w.orphan d) c i := by
  have hcut : ∀ x y, y ∈ childrenOf w x → y ∈ childrenOf (w.orphan d) x ∨ x = d := by
    intro x y hy
    by_cases hx : x = d
    · exact .inr hx
    · left
      rwa [World.orphan, childrenOf_modify_ne (Ne.symm hx)]
  rcases h.cut hcut (fun x hx => by simpa using hx) with h | ⟨x, y, hy, rfl, h⟩
  · exact .inl h
  · exact .inr ⟨y, hy, h⟩

theorem Watched.release (h : Watched w t i) (hc : ¬ Watched w c i) :
    Watched (w.release p c) t i := by
  have hsub : ∀ x y, y ∈ childrenOf (w.release p c) x → y ∈ childrenOf w x := fun x y =>
    fun hy => (childrenOf_modify_sublist (fun _ => filter_sublist)).subset hy
  have hcut : ∀ x y, y ∈ childrenOf w x → y ∈ childrenOf (w.release p c) x ∨ y = c := by
    intro x y hy
    by_cases hyc : y = c
    · exact .inr hyc
    · left
      by_cases hx : p = x
      · cases hd : w.detectors[x]? with
        | none => simp [childrenOf, hd] at hy
        | some e =>
          rw [World.release, hx, childrenOf_modify hd, mem_filter]
          exact ⟨childrenOf_eq hd ▸ hy, by simpa using hyc⟩
      · rwa [World.release, childrenOf_modify_ne hx]
  rcases h.cut hcut (fun x hx => by simpa using hx) with h | ⟨x, y, _, rfl, h⟩
  · exact h
  · exact absurd (h.mono hsub fun x hx => by simpa using hx) hc

/-! ## Destroying a tree -/

def Errand.Exhausted : Errand κ υ → Prop
  | .act _ r => r = .error .exhausted
  | .destroy _ _ _ r => r = .error .exhausted
  | .destroyAll _ _ _ r => r = .error .exhausted
  | .run _ _ r => r = .error .exhausted

theorem exhausted_error {e : Stop}
    (h : (.error e : Except Stop α) = .error .exhausted) :
    (.error e : Except Stop β) = .error .exhausted :=
  congrArg Except.error (Except.error.inj h)

theorem exhausted_map {r : Except Stop α} (h : r = .error .exhausted) :
    r.map f = .error .exhausted := by
  rw [h]
  rfl

theorem exhausted_forgive (h : r = .error .exhausted) : forgive r = .error .exhausted := by
  rw [h]
  rfl

def Errand.targets : Errand κ υ → List DetectorId
  | .destroy _ _ d _ => [d]
  | .destroyAll _ _ ds _ => ds
  | _ => []

/-- No child is taken away by which the watcher is reached. -/
def Unreleased (i : WatcherId) (tr : List (Moment κ υ)) : Prop :=
  ∀ m ∈ tr, ∀ p c, m.event = .remove p c → ¬ Watched m.world c i

theorem unreleased_append : Unreleased i (tr ++ tr') ↔ Unreleased i tr ∧ Unreleased i tr' :=
  forall_mem_append

theorem Unreleased.tail (h : Unreleased i (m :: tr)) : Unreleased i tr :=
  (forall_mem_cons.mp h).2

theorem Below.eq_root (ht : childrenOf w t = []) (h : Below w t d) : d = t := by
  induction h with
  | root => rfl
  | child x y c _ hc hy ih =>
    rw [ih] at hc
    rw [childrenOf_eq hc] at ht
    simp [ht] at hy

theorem not_watched_of_unknown (hd : w.detectors[d]? = none) : ¬ Watched w d i := by
  intro h
  obtain ⟨x, hb, hi⟩ := watched_iff.mp h
  obtain rfl := hb.eq_root (by simp [childrenOf, hd])
  simp [watchersOf, hd] at hi

theorem outcome_apply_detectors : (outcome (apply s) w).2.detectors = w.detectors := by
  rw [outcome_apply]
  split
  · split <;> rfl
  · rfl

theorem Does.unset (h : Does calls j (w.setRunning s true) tr u) (hw : Sound w) :
    Sound (w.setRunning s true) ∧ Course u (u.setRunning s false) ∧
      Sound (u.setRunning s false) := by
  have hset := (Change.setRunning s true w).course
  have hunset := (Change.setRunning s false u).course
  exact ⟨hset.sound hw, hunset, ((hset.trans h.trail.course.1).trans hunset).sound hw⟩

/-- A watcher stays where it is reached from until a detector above it is destroyed, and then nobody
lists it. -/
theorem Does.remains (h : Does calls j w tr w') (hw : Sound w) (hu : Unreleased i tr) :
    j.Exhausted ∨ Remains i w w' ∧ ∀ d ∈ j.targets, Watched w d i → Unlisted w' i := by
  induction h with
  | silent w hx => exact .inr ⟨.of_adds hw (hx w), nofun⟩
  | bind hdoes hdoes' ih ih' =>
    obtain ⟨hu, hu'⟩ := unreleased_append.mp hu
    obtain ⟨hrem, -⟩ := (ih hw hu).resolve_left nofun
    refine (ih' (hdoes.trail.course.1.sound hw) hu').imp_right fun ⟨hrem', _⟩ => ?_
    exact ⟨hrem.trans hdoes'.trail.course.1 hrem', nofun⟩
  | stop _ ih => exact (ih hw hu).imp exhausted_error fun h => ⟨h.1, nofun⟩
  | guarded _ ih => exact (ih hw hu).imp exhausted_forgive fun h => ⟨h.1, nofun⟩
  | remove p c w =>
    refine .inr ⟨fun t ht => .inl (ht.release ?_), nofun⟩
    exact hu _ mem_cons_self p c rfl
  | call _ ih | start _ ih => exact (ih hw hu).imp_right fun h => ⟨h.1, nofun⟩
  | tooDeep | cleanupStops | nextStops => exact .inl rfl
  | unknown hd =>
    refine .inr ⟨fun t ht => .inl ht, fun e he hwatched => ?_⟩
    rw [mem_singleton.mp he] at hwatched
    exact absurd hwatched (not_watched_of_unknown hd)
  | @destroy d c _ _ u _ _ r _ w' w hd hdoes hdoes' ih ih' =>
    obtain ⟨hu₁, hu₂⟩ := unreleased_append.mp hu.tail
    have hstruck := (Change.strike d w).course
    have hcourse := hdoes.trail.course.1
    have horphan := (Change.orphan d u).course
    have hsound := (hstruck.trans hcourse).sound hw
    obtain ⟨hrem, -⟩ := (ih (hstruck.sound hw) hu₁).resolve_left nofun
    refine (ih' (horphan.sound hsound) hu₂).imp_right fun ⟨hrem', hkill⟩ => ?_
    have hcourse' := hdoes'.trail.course.1
    have hrem := (Remains.strike hw).trans hcourse hrem
    have hall : ∀ t, Watched u t i → Watched w' t i ∨ Unlisted w' i := by
      intro t ht
      rcases ht.orphan with ht | ⟨e, he, ht⟩
      · exact hrem' t ht
      · exact .inr (hkill e he ht)
    refine ⟨fun t ht => ?_, fun e he ht => ?_⟩
    · rcases hrem t ht with ht | ht
      · exact hall t ht
      · exact .inr ((horphan.trans hcourse').unlisted ht)
    · rw [mem_singleton.mp he] at ht
      obtain ⟨x, -, hx⟩ := watched_iff.mp ht
      have hlt : i < w.watchers.size := hw.stored x i hx
      -- `d` itself lists the watcher no more, and has no children but those that are destroyed next
      have hown : i ∉ watchersOf u d := fun hi => by
        have := hcourse.listed d i hlt hi
        rw [watchersOf_strike_self] at this
        cases this
      rcases hrem d ht with ht | ht
      · rcases ht.orphan with ht | ⟨e, he, ht⟩
        · obtain ⟨y, hb, hy⟩ := watched_iff.mp ht
          obtain rfl := hb.eq_root (childrenOf_orphan_self u)
          exact absurd (by simpa using hy) hown
        · exact hkill e he ht
      · exact (horphan.trans hcourse').unlisted ht
  | nobody w | unscheduled => exact .inr ⟨fun t ht => .inl ht, nofun⟩
  | @next _ _ _ d w _ u ds r _ w' hdoes hdoes' ih ih' =>
    obtain ⟨hu₁, hu₂⟩ := unreleased_append.mp hu
    obtain ⟨hrem, hkill⟩ := (ih hw hu₁).resolve_left nofun
    have hcourse' := hdoes'.trail.course.1
    refine (ih' (hdoes.trail.course.1.sound hw) hu₂).imp_right fun ⟨hrem', hkill'⟩ => ?_
    refine ⟨hrem.trans hcourse' hrem', fun e he ht => ?_⟩
    rcases mem_cons.mp he with rfl | he
    · exact hcourse'.unlisted (hkill e mem_cons_self ht)
    · rcases hrem e ht with ht | ht
      · exact hkill' e he ht
      · exact hcourse'.unlisted ht
  | unread _ _ _ ih => exact (ih hw hu.tail).imp exhausted_error fun h => ⟨h.1, nofun⟩
  | same _ _ _ _ _ ih => exact .inr ⟨((ih hw hu.tail).resolve_left nofun).1, nofun⟩
  | @changed w _ i' _ _ _ v _ u _ _ _ _ _ _ hdoes _ _ hdoes' ih ih' =>
    obtain ⟨hu₁, hu₂⟩ := unreleased_append.mp hu.tail
    obtain ⟨hrem, -⟩ := (ih hw hu₁).resolve_left nofun
    have hsound := hdoes.trail.course.1.sound hw
    have hadds := Adds.remember u i' v
    refine (ih' (hadds.sound hsound) hu₂.tail).imp exhausted_map fun ⟨hrem', _⟩ => ⟨?_, nofun⟩
    exact (hrem.trans (.of_adds hadds) (.of_adds hsound hadds)).trans hdoes'.trail.course.1 hrem'
  | apply s w => exact .inr ⟨.of_same outcome_apply_detectors, nofun⟩
  | @loopStops s _ _ _ _ _ _ w _ hdoes ih =>
    have hset := (Change.setRunning s true w).course
    refine (ih (hset.sound hw) (unreleased_append.mp hu.tail).1).imp exhausted_error
      fun ⟨hrem, _⟩ => ⟨hrem.after_same rfl, nofun⟩
  | @onceStops s _ _ _ _ _ u _ _ _ w _ hdoes hdoes' ih ih' =>
    obtain ⟨hu₁, hu₂⟩ := unreleased_append.mp hu.tail
    obtain ⟨hset, hunset, hsound⟩ := hdoes.unset hw
    obtain ⟨hrem, -⟩ := (ih hset hu₁).resolve_left nofun
    refine (ih' hsound hu₂).imp exhausted_error
      fun ⟨hrem', _⟩ => ⟨?_, nofun⟩
    have hrem : Remains i w u := hrem.after_same rfl
    exact hrem.trans (hunset.trans hdoes'.trail.course.1) (hrem'.after_same rfl)
  | @run s _ _ _ _ _ u _ w' w _ hdoes hdoes' ih ih' =>
    obtain ⟨hu₁, hu₂⟩ := unreleased_append.mp hu.tail
    obtain ⟨hset, hunset, hsound⟩ := hdoes.unset hw
    obtain ⟨hrem, -⟩ := (ih hset hu₁).resolve_left nofun
    obtain ⟨hrem', -⟩ := (ih' hsound hu₂).resolve_left nofun
    have hrem : Remains i w u := hrem.after_same rfl
    have hrem := hrem.trans (hunset.trans hdoes'.trail.course.1) (hrem'.after_same rfl)
    exact .inr ⟨hrem.trans (Change.countRun s w').course (.of_same rfl), nofun⟩
  | take ht hdoes ih =>
    exact (ih ((Effect.take ht).course.sound hw) hu.tail).imp exhausted_map fun ⟨hrem, _⟩ =>
      ⟨hrem.after_same rfl, nofun⟩
  | other ht hd hdoes ih =>
    exact (ih ((Change.dropTask ht hd).course.sound hw) hu).imp_right fun ⟨hrem, _⟩ =>
      ⟨hrem.after_same rfl, nofun⟩

/-! ## After a detector is destroyed -/

/-- The moment falls into the call of `destroy d` that begins at `m`. -/
def During (d : DetectorId) (m m' : Moment κ υ) : Prop := .destroy d :: m.calls <:+ m'.calls

/-- What follows the call of `destroy d` that begins at `m` does not read the watcher and does not
act on it, unless it was being read when the call began. -/
def Ceases (i : WatcherId) (d : DetectorId) (m : Moment κ υ) (rest : List (Moment κ υ)) : Prop :=
  ∃ during after, rest = during ++ after ∧ (∀ m' ∈ during, During d m m') ∧
    ∀ m' ∈ after, m'.event ≠ .read i ∧ (m'.event = .act i → .read i ∈ m.calls)

/-- Every call of `destroy d` above the watcher ends what happens to it, and brings about `end_`. -/
def Ending (i : WatcherId) (d : DetectorId) (tr : List (Moment κ υ)) (end_ : Prop) : Prop :=
  ∀ before m rest, tr = before ++ m :: rest → m.event = .destroy d → Watched m.world d i →
    (∀ m' ∈ rest, During d m m' → ∀ p c, m'.event = .remove p c → ¬ Watched m'.world c i) →
      Ceases i d m rest ∧ end_

namespace Ending

variable {P Q : Prop} {m : Moment κ υ} {tr' : List (Moment κ υ)}

theorem nil : Ending i d ([] : List (Moment κ υ)) P := by
  intro before m rest heq
  cases before <;> cases heq

theorem call (hm : m.event = .destroy d → Watched m.world d i →
      (∀ m' ∈ tr, ∀ p c, m'.event = .remove p c → ¬ Watched m'.world c i) → P)
    (hin : m.event = .destroy d → ∀ m' ∈ tr, During d m m') (h : Ending i d tr P) :
    Ending i d (m :: tr) P := by
  intro before m' rest heq hm' hw hr
  cases before with
  | nil =>
    obtain ⟨rfl, rfl⟩ := List.cons.inj heq
    have hin := hin hm'
    refine ⟨⟨tr, [], by simp, hin, nofun⟩, hm hm' hw fun m'' hm'' => ?_⟩
    exact hr m'' hm'' (hin m'' hm'')
  | cons m₀ before => exact h before m' rest (List.cons.inj heq).2 hm' hw hr

theorem cons (hm : m.event ≠ .destroy d) (h : Ending i d tr P) : Ending i d (m :: tr) P :=
  h.call (fun heq => absurd heq hm) fun heq => absurd heq hm

theorem imp (h : Ending i d tr P) (hPQ : P → Q) : Ending i d tr Q :=
  fun before m rest heq hm hw hr => (h before m rest heq hm hw hr).imp_right hPQ

theorem append (h : Ending i d tr P) (h' : Ending i d tr' Q)
    (hnext : P → Q ∧ ∀ m' ∈ tr', m'.event ≠ .read i ∧
      (m'.event = .act i → ∀ m ∈ tr, .read i ∈ m.calls)) : Ending i d (tr ++ tr') Q := by
  intro before m rest heq hm hw hr
  rcases append_eq_append_iff.mp heq with ⟨a, rfl, ha⟩ | ⟨a, rfl, ha⟩
  · exact h' a m rest ha hm hw hr
  · cases a with
    | nil =>
      exact h' [] m rest ha.symm hm hw hr
    | cons m₀ a =>
      obtain ⟨rfl, rfl⟩ := List.cons.inj ha
      obtain ⟨⟨during, after, rfl, hd, hafter⟩, hP⟩ := h before m a rfl hm hw fun m' hm' =>
        hr m' (mem_append_left _ hm')
      obtain ⟨hQ, hnext⟩ := hnext hP
      refine ⟨⟨during, after ++ tr', by simp, hd, forall_mem_append.mpr ⟨hafter, ?_⟩⟩, hQ⟩
      exact fun m' hm' => (hnext m' hm').imp_right fun hact heq => hact heq m (by simp)

theorem followed (h : Ending i d tr (Unlisted u i)) (hc : Course u v)
    (hdoes : Does calls j v tr' w') (h' : Ending i d tr' (P ∨ Unlisted w' i)) :
    Ending i d (tr ++ tr') (P ∨ Unlisted w' i) := by
  refine h.append h' fun hu => ?_
  obtain ⟨hend, hall⟩ := hdoes.silent_of_unlisted (hc.unlisted hu)
  exact ⟨.inr hend, fun m' hm' => ⟨(hall m' hm').1, fun hact => absurd hact (hall m' hm').2⟩⟩

end Ending

theorem Does.ending (h : Does calls j w tr w') (hw : Sound w) :
    Ending i d tr (j.Exhausted ∨ Unlisted w' i) := by
  induction h with
  | silent | tooDeep | nobody | unscheduled => exact .nil
  | remove | apply => exact .cons nofun .nil
  | bind hdoes hdoes' ih ih' | next hdoes hdoes' ih ih' =>
    exact ((ih hw).imp (·.resolve_left nofun)).followed (.refl) hdoes'
      (ih' (hdoes.trail.course.1.sound hw))
  | stop _ ih => exact (ih hw).imp (Or.imp_left exhausted_error)
  | guarded _ ih => exact (ih hw).imp (Or.imp_left exhausted_forgive)
  | call _ ih | start _ ih | nextStops _ ih => exact ih hw
  | unknown hd =>
    refine Ending.nil.call (fun heq hwatched _ => ?_) fun _ => nofun
    obtain rfl := Event.destroy.inj heq
    exact absurd hwatched (not_watched_of_unknown hd)
  | @cleanupStops d' _ _ _ _ _ _ w _ hdoes ih =>
    have hstruck := (Change.strike d' w).course
    refine ((ih (hstruck.sound hw)).imp fun _ => .inl rfl).call (fun _ _ _ => .inl rfl) fun heq => ?_
    obtain rfl := Event.destroy.inj heq
    exact hdoes.within
  | @destroy d' _ _ _ u _ _ _ _ _ w hd hdoes hdoes' ih ih' =>
    have hstruck := (Change.strike d' w).course
    have horphan := (Change.orphan d' u).course
    have hsound := (hstruck.trans hdoes.trail.course.1).sound hw
    refine Ending.call (fun heq hwatched hr => ?_) (fun heq => ?_)
      (((ih (hstruck.sound hw)).imp (·.resolve_left nofun)).followed horphan hdoes'
        (ih' (horphan.sound hsound)))
    · obtain rfl := Event.destroy.inj heq
      have hrem := (Does.destroy hd hdoes hdoes').remains hw (forall_mem_cons.mpr ⟨nofun, hr⟩)
      exact hrem.imp_right fun h => h.2 d' mem_cons_self hwatched
    · obtain rfl := Event.destroy.inj heq
      exact forall_mem_append.mpr ⟨hdoes.within, hdoes'.within⟩
  | unread _ _ _ ih => exact .cons nofun ((ih hw).imp (Or.imp_left exhausted_error))
  | same _ _ _ _ _ ih => exact .cons nofun ((ih hw).imp fun h => .inr (h.resolve_left nofun))
  | @changed _ _ i' _ _ _ v _ u _ _ _ _ hi _ hdoes _ _ hdoes' ih ih' =>
    have hsound := hdoes.trail.course.1.sound hw
    have hadds := Adds.remember u i' v
    refine .cons nofun (((ih hw).imp (·.resolve_left nofun)).append (.cons nofun
      ((ih' (hadds.sound hsound)).imp (Or.imp_left exhausted_map))) fun hu => ?_)
    obtain ⟨hend, hall⟩ := hdoes'.silent_of_unlisted ((Course.of_adds hadds).unlisted hu)
    refine ⟨.inr hend, forall_mem_cons.mpr ⟨⟨nofun, fun heq m hm => ?_⟩, fun m' hm' => ?_⟩⟩
    · obtain rfl := Event.act.inj heq
      exact (hdoes.within m hm).subset mem_cons_self
    · exact ⟨(hall m' hm').1, fun hact => absurd hact (hall m' hm').2⟩
  | @loopStops s _ _ _ _ _ _ w _ hdoes ih =>
    have hset := (Change.setRunning s true w).course
    refine .cons nofun (((ih (hset.sound hw)).imp (Or.imp_left exhausted_error)).append
      (.cons nofun .nil) fun hend => ⟨hend, ?_⟩)
    simp
  | @onceStops s _ _ _ _ _ u _ _ _ w _ hdoes hdoes' ih ih' =>
    obtain ⟨hset, hunset, hsound⟩ := hdoes.unset hw
    exact .cons nofun (((ih hset).imp (·.resolve_left nofun)).followed hunset hdoes'
      ((ih' hsound).imp (Or.imp_left exhausted_error)))
  | @run s _ _ _ _ _ u _ w' w _ hdoes hdoes' ih ih' =>
    obtain ⟨hset, hunset, hsound⟩ := hdoes.unset hw
    refine .cons nofun ((((ih hset).imp (·.resolve_left nofun)).followed hunset hdoes'
      (P := False) ((ih' hsound).imp (Or.imp_left nofun))).imp fun h => ?_)
    exact .inr ((Change.countRun s w').course.unlisted (h.resolve_left id))
  | take ht _ ih =>
    exact .cons nofun ((ih ((Effect.take ht).course.sound hw)).imp (Or.imp_left exhausted_map))
  | other ht hd _ ih => exact ih ((Change.dropTask ht hd).course.sound hw)

/-- Nothing of a destroyed tree runs again, whatever the hooks do. The moves have a trace; and in
every trace, after a call of `destroy` none of the watchers that the tree had when the call began is
read, and none is acted on whose source was not being read then. Only a cleanup that runs during the
call can keep a watcher, by taking its detector, or one above it, out of the tree. -/
theorem nothing_runs_after_destroy {h : Host κ υ} (hh : Conforms h) (moves : List (Move κ))
    (hw : Sound w) :
    (∃ tr, Does [] (.act (play h moves) (outcome (play h moves) w).1) w tr
      (outcome (play h moves) w).2) ∧
    ∀ before m rest r w' d i, Does [] (.act (play h moves) r) w (before ++ m :: rest) w' →
      m.event = .destroy d → Watched m.world d i →
      (∀ m' ∈ rest, During d m m' → ∀ p c, m'.event = .remove p c → ¬ Watched m'.world c i) →
        outcome (play h moves) w = (r, w') ∧ Ceases i d m rest ∧
          (r = .error .exhausted ∨ Unlisted w' i) := by
  refine ⟨hh.play moves w hw [], fun before m rest r w' d i hdoes hm hwatched hkeep => ?_⟩
  exact ⟨hdoes.ends, hdoes.ending hw before m rest rfl hm hwatched hkeep⟩

/-! ## A tree that is destroyed while it is read -/

namespace Does

theorem digestMove (hd : Does calls (.act (Reactive.digest h d (pure ())) (.ok n)) w tr u) :
    Does calls (.act (Move.run h (.digest d none)) (.ok ())) w tr u :=
  last hd returned

theorem destroyed (hd : w.detectors[d]? = some c)
    (hcleanups : ∀ n, Does (.destroy d :: calls)
      (.act (c.cleanups.forM fun k => Reactive.guarded (cleanUp h n k)) (.ok ())) (w.strike d) tr u)
    (hc : childrenOf u d = []) :
    Does calls (.act (Reactive.destroy h d) (.ok ())) w (⟨.destroy d, calls, w⟩ :: tr)
      (u.orphan d) := by
  obtain ⟨n, hn⟩ := exists_slack w.detectors.size
  refine first (.silent w silent_get) ?_
  rw [hn]
  have hnone : Does (.destroy d :: calls) (.destroyAll h (n + 1) (childrenOf u d) (.ok ())) (u.orphan d)
      [] (u.orphan d) := by
    rw [hc]
    exact .nobody _
  have hdoes := Does.destroy hd (hcleanups (n + 1)) hnone
  rw [append_nil] at hdoes
  exact .call hdoes

theorem digested {c e : Detector κ} (hd : w.detectors[d]? = some c) (hp : c.preludes = [])
    (hi : c.watchers[0]? = some i) (hcheck : Does calls (.act (check h i) (.ok false)) w tr u)
    (he : u.detectors[d]? = some e) (hw : e.watchers[1]? = none) (hc : e.children = [])
    (ho : e.onces = []) : Does calls (.act (digest h d (pure ())) (.ok 1)) w tr (u.served d) := by
  have hreport : Does calls (.act (digestReport h d (pure ())) (.ok ⟨1, true, none⟩)) w tr
      (u.served d) := by
    refine last (passed hd hp hi hcheck he hw hc) (first returned (first (found he) ?_))
    refine first served ?_
    rw [ho]
    exact first returned returned
  exact last hreport returned

end Does

namespace Escape

inductive Hook where
  | truth
  | digestOther
  | destroyTree
  | takeLeaf
  | nothing

def bare : Host Hook Unit where
  read := fun _ => throw .failed
  key := fun _ _ _ => throw .failed
  run := fun _ _ => throw .failed
  buildItem := fun _ _ _ _ _ => throw .failed
  attach := fun _ _ => throw .failed
  construct := fun _ _ _ => throw .failed
  options := fun _ => throw .failed
  page _ := []

/-- Hooks of a tree `0` with a leaf `1`, and of another detector `2`. What they lead to is called
through the host `h`. -/
def calling (h : Host Hook Unit) : Host Hook Unit :=
  { bare with
    read := fun k =>
      match k with
      | .digestOther => do
        let _ ← digest h 2 (pure ())
        return .bool true
      | _ => return .bool true
    run := fun k _ =>
      match k with
      | .destroyTree => destroy h 0
      | .takeLeaf => do
        let _ ← digest h 1 (pure ())
        removeChild 0 1
      | _ => pure () }

theorem conforms_bare : Conforms bare := by
  constructor <;> intros <;> exact silent_throw.traced

theorem conforms_calling (hh : Conforms h) : Conforms (calling h) := by
  refine ⟨fun k => ?_, conforms_bare.key, fun k o => ?_, conforms_bare.buildItem,
    conforms_bare.attach, conforms_bare.construct, conforms_bare.options⟩
  · cases k with
    | digestOther =>
      exact (hh.digest silent_pure.traced).bind fun _ => silent_pure.traced
    | truth | destroyTree | takeLeaf | nothing => exact silent_pure.traced
  · cases k with
    | destroyTree => exact hh.destroy 0
    | takeLeaf => exact (hh.digest silent_pure.traced).bind fun _ => traced_removeChild 0 1
    | truth | digestOther | nothing => exact silent_pure.traced

def host : Host Hook Unit := calling (calling (calling (calling bare)))

theorem conforms_host : Conforms host :=
  conforms_calling (conforms_calling (conforms_calling (conforms_calling conforms_bare)))

def world : World Hook Unit where
  user := ()
  detectors := #[
    { root := 0, children := [1], watchers := [0, 1], cleanups := [.hook .takeLeaf] },
    { root := 0, watchers := [2] },
    { root := 2, watchers := [3] }]
  watchers := #[
    { source := .hook .digestOther, action := .hook .nothing, readOnly := true },
    { source := .hook .truth, action := .hook .nothing, readOnly := true },
    { source := .hook .truth, action := .hook .nothing, readOnly := true },
    { source := .hook .truth, action := .hook .destroyTree, readOnly := true }]

def dropping : World Hook Unit := world.remember 3 (.bool true)

def leafRan : World Hook Unit := ((dropping.strike 0).remember 2 (.bool true)).served 1

def dropped : World Hook Unit := ((leafRan.release 0 1).orphan 0).served 2

def acted : World Hook Unit := (dropped.remember 0 (.bool true)).served 0

/-- The cleanup of the tree digests its leaf and takes it away. -/
def cleanupMoments (calls : List Frame) : List (Moment Hook Unit) :=
  [⟨.read 2, calls, dropping.strike 0⟩, ⟨.act 2, calls, dropping.strike 0⟩,
    ⟨.remove 0 1, calls, leafRan⟩]

theorem does_takeLeaf :
    Does calls (.act ((calling (calling bare)).run .takeLeaf .plain) (.ok ())) (dropping.strike 0)
      (cleanupMoments calls) (leafRan.release 0 1) := by
  have hlisted : 2 ∈ watchersOf (dropping.strike 0) 1 := by decide
  have hcheck : Does calls (.act (check (calling bare) 2) (.ok false)) (dropping.strike 0)
      [⟨.read 2, calls, dropping.strike 0⟩, ⟨.act 2, calls, dropping.strike 0⟩]
      ((dropping.strike 0).remember 2 (.bool true)) :=
    .noticed (p := []) hlisted rfl rfl (.returned) rfl (by decide) (.returned)
  exact .bind (.digested rfl rfl rfl hcheck rfl rfl rfl rfl) (.remove 0 1 leafRan)

theorem does_destroyTree :
    Does calls (.act ((calling (calling (calling bare))).run .destroyTree o) (.ok ())) dropping
      (⟨.destroy 0, calls, dropping⟩ :: cleanupMoments (.destroy 0 :: calls))
      ((leafRan.release 0 1).orphan 0) :=
  .destroyed rfl (fun _ => .one (.guarded does_takeLeaf)) rfl

/-- Reading the first watcher of the tree digests the other detector, which destroys the tree. -/
theorem does_digestOther :
    Does [.read 0] (.act (host.read .digestOther) (.ok (.bool true))) world
      (⟨.read 3, [.read 0], world⟩ :: ⟨.act 3, [.read 0], world⟩ :: ⟨.destroy 0, [.read 0], dropping⟩ ::
        cleanupMoments [.destroy 0, .read 0]) dropped := by
  have hlisted : 3 ∈ watchersOf world 2 := by decide
  have hcheck : Does [.read 0] (.act (check (calling (calling (calling bare))) 3) (.ok false)) world
      (⟨.read 3, [.read 0], world⟩ :: ⟨.act 3, [.read 0], world⟩ ::
        ⟨.destroy 0, [.read 0], dropping⟩ :: cleanupMoments [.destroy 0, .read 0])
      ((leafRan.release 0 1).orphan 0) :=
    .noticed hlisted rfl rfl (.returned) rfl (by decide) does_destroyTree
  exact .last (.digested rfl rfl rfl hcheck rfl rfl rfl rfl) (.returned)

/-- The call of `destroy` comes while the first watcher is being read. -/
def destroying : Moment Hook Unit := ⟨.destroy 0, [.read 0], dropping⟩

/-- After the tree has been destroyed, its first watcher is acted on and its leaf is read. -/
def laterMoments : List (Moment Hook Unit) :=
  cleanupMoments [.destroy 0, .read 0] ++ [⟨.act 0, [], dropped⟩, ⟨.read 2, [], acted⟩]

theorem does_play :
    Does [] (.act (play host [.digest 0 none, .digest 1 none]) (.ok ())) world
      ([⟨.read 0, [], world⟩, ⟨.read 3, [.read 0], world⟩, ⟨.act 3, [.read 0], world⟩] ++
        destroying :: laterMoments) (acted.served 1) := by
  have hlisted : 0 ∈ watchersOf world 0 := by decide
  have hlisted' : 2 ∈ watchersOf acted 1 := by decide
  have hcheck := Does.noticed hlisted rfl rfl does_digestOther rfl (by decide)
    (.returned)
  have hfirst := Does.digested (d := 0) rfl rfl rfl hcheck rfl rfl rfl rfl
  have hsame : Does [] (.act (check host 2) (.ok false)) acted
      [⟨.read 2, [], acted⟩] acted :=
    .same hlisted' rfl (.returned) rfl (by decide)
  have hsecond := Does.digested (d := 1) rfl rfl rfl hsame rfl rfl rfl rfl
  have hplay := Does.moved hfirst.digestMove (.moved hsecond.digestMove (.played))
  exact hplay

theorem sound_world : Sound world := by decide

theorem watched_root (hi : i ∈ watchersOf w d) : Watched w d i := watched_iff.mpr ⟨d, .root, hi⟩

end Escape

/-- A watcher of the tree that is not reached by what the cleanup takes away. -/
theorem nothing_runs_after_destroy_tree :
    Conforms Escape.host ∧ Sound Escape.world ∧ Watched Escape.destroying.world 0 1 ∧
      Ceases 1 0 Escape.destroying Escape.laterMoments ∧ Unlisted (Escape.acted.served 1) 1 := by
  have hwatched : Watched Escape.destroying.world 0 1 :=
    Escape.watched_root (by decide : 1 ∈ watchersOf Escape.dropping 0)
  have hleaf : ¬ Watched Escape.leafRan 1 1 := by
    intro h
    obtain ⟨d, hb, hi⟩ := watched_iff.mp h
    obtain rfl := hb.eq_root (by decide)
    exact absurd hi (by decide)
  have hthm := (nothing_runs_after_destroy Escape.conforms_host [.digest 0 none, .digest 1 none]
    Escape.sound_world).2 _ Escape.destroying Escape.laterMoments _ _ 0 1 Escape.does_play rfl hwatched
    (by simp [Escape.laterMoments, Escape.cleanupMoments, hleaf])
  exact ⟨Escape.conforms_host, Escape.sound_world, hwatched, hthm.2.1, hthm.2.2.resolve_left nofun⟩

/-- A destroyed tree can be run: by a digest that a cleanup starts, by the read that was under way,
and where a cleanup takes a leaf out of the tree in time. -/
theorem destroyed_tree_runs :
    Conforms Escape.host ∧ Sound Escape.world ∧
      Does [] (.act (play Escape.host [.digest 0 none, .digest 1 none]) (.ok ())) Escape.world
        ([⟨.read 0, [], Escape.world⟩, ⟨.read 3, [.read 0], Escape.world⟩,
          ⟨.act 3, [.read 0], Escape.world⟩] ++ Escape.destroying :: Escape.laterMoments)
        (Escape.acted.served 1) ∧
      Escape.destroying.event = .destroy 0 ∧ Watched Escape.destroying.world 0 0 ∧
      Watched Escape.destroying.world 0 2 ∧
      (∃ m ∈ Escape.laterMoments, m.event = .act 2 ∧ During 0 Escape.destroying m) ∧
      (∃ m ∈ Escape.laterMoments, m.event = .act 0 ∧ m.calls = []) ∧
      ∃ m ∈ Escape.laterMoments, m.event = .read 2 ∧ m.calls = [] := by
  have hleaf : Watched Escape.dropping 0 2 :=
    watched_iff.mpr ⟨1, Below.root.step (by decide), by decide⟩
  refine ⟨Escape.conforms_host, Escape.sound_world, Escape.does_play, rfl,
    Escape.watched_root (by decide : 0 ∈ watchersOf Escape.dropping 0), hleaf, ?_, ?_, ?_⟩
  · exact ⟨⟨.act 2, [.destroy 0, .read 0], Escape.dropping.strike 0⟩,
      by simp [Escape.laterMoments, Escape.cleanupMoments], rfl, List.suffix_rfl⟩
  · exact ⟨⟨.act 0, [], Escape.dropped⟩, by simp [Escape.laterMoments], rfl, rfl⟩
  · exact ⟨⟨.read 2, [], Escape.acted⟩, by simp [Escape.laterMoments], rfl, rfl⟩

end ReactiveMarkup.Reactive
