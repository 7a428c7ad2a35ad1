import ReactiveMarkup.Proofs.SiblingSteps

/-! # Digests of blocks under one parent

A digest visits its detector first, and so each block is checked before anything else in a pass.
Whatever else the digest does leaves the blocks as they are.
-/

namespace ReactiveMarkup.Reactive

open List Meets

variable {κ υ : Type} {h : Host κ υ} {s : Family κ} {valid : (κ → Value) → World κ υ → Prop}
  {finish : Act κ υ Unit} {given : κ → Value} {others : List DetectorId} {note : NodeId → Note}
  {own : NodeId → List NodeId} {w₀ w v w' : World κ υ}

theorem Advances.trans (ha : Advances h s valid given others note own w v note' own')
    (ha' : Advances h s valid given others note' own' v w' note'' own'') :
    Advances h s valid given others note own w w' note'' own'' := by
  obtain ⟨-, -, ho, hm⟩ := ha
  obtain ⟨hl', hv', ho', hm'⟩ := ha'
  exact ⟨hl', hv', ho.trans ho', hm.trans hm' ho⟩

theorem lt_size_of_check (hret : Returns (check h i) w r w') : i < w.watchers.size := by
  obtain ⟨_, _, hfind, -⟩ := returns_bind.mp hret
  exact (Array.getElem?_eq_some_iff.mp (returns_find.mp hfind).1).1

/-- The detectors visited so far and those in the queue, in a walk that begins with `root`. What is
below `root` and is a child of none that was visited has not been seen. -/
structure Toured (root : DetectorId) (visited queue : List DetectorId) (w : World κ υ) : Prop where
  once : (visited ++ queue).Nodup
  known : ∀ d ∈ visited ++ queue, root ≤ d ∧ d < w.detectors.size
  parents : ∀ c ∈ visited ++ queue, ∀ j, root ≤ j → c ∈ childrenOf w j → j ∈ visited

namespace Toured

variable {root d : DetectorId} {visited queue : List DetectorId}

theorem start (ht : Hierarchy w) (hr : root < w.detectors.size) : Toured root [] [root] w where
  once := by simp
  known := by
    intro d hd
    obtain rfl : d = root := by simpa using hd
    exact ⟨le_rfl, hr⟩
  parents := by
    intro c hc j hle hm
    obtain rfl : c = root := by simpa using hc
    exact absurd (ht.newer j c hm).1 (Nat.not_lt.mpr hle)

theorem onward (hw : Toured root visited queue w) (ho : Onward s w w') :
    Toured root visited queue w' where
  once := hw.once
  known := fun d hd => ⟨(hw.known d hd).1, (hw.known d hd).2.trans_le ho.detectors⟩
  parents := fun c hc j hle hm => hw.parents c hc j hle (ho.settled j c (hw.known c hc).2 hm)

theorem visit (hw : Toured root visited (d :: queue) w) (ht : Hierarchy w) :
    Toured root (visited ++ [d]) (queue ++ childrenOf w d) w := by
  have hnew : ∀ c ∈ childrenOf w d, c ∉ visited ++ d :: queue := by
    intro c hc hm
    have hd := hw.parents c hm d (hw.known d (by simp)).1 hc
    exact (nodup_append.mp hw.once).2.2 d hd d (by simp) rfl
  have hsplit : visited ++ [d] ++ (queue ++ childrenOf w d) =
      (visited ++ d :: queue) ++ childrenOf w d := by simp
  constructor
  · rw [hsplit, nodup_append]
    refine ⟨hw.once, ht.once d, ?_⟩
    rintro x hx _ hc rfl
    exact hnew x hc hx
  · rw [hsplit]
    intro c hc
    rcases mem_append.mp hc with hc | hc
    · exact hw.known c hc
    · have hparent := hw.known d (by simp)
      exact ⟨(hparent.1.trans_lt (ht.newer d c hc).1).le, (ht.newer d c hc).2⟩
  · rw [hsplit]
    intro c hc j hle hm
    rcases mem_append.mp hc with hc | hc
    · exact mem_append_left _ (hw.parents c hc j hle hm)
    · rw [ht.parent j d c hm hc]
      simp

theorem length_le (hw : Toured root visited queue w) : visited.length ≤ w.detectors.size :=
  length_le_of_nodup (nodup_append.mp hw.once).1 fun d hd =>
    (hw.known d (mem_append_left _ hd)).2

end Toured

variable (ht : Tame h s valid finish) (hl : Laid h s valid others note own w) (hv : valid given w)
include hl hv

theorem Advances.refl : Advances h s valid given others note own w w note own :=
  ⟨hl, hv, .refl s w, .refl h s valid given w note own⟩

include ht

theorem Laid.foreign {act : Act κ υ α} (hact : Foreign h s (Known valid) finish α act) :
    Meets (Interrupted h s (Known valid) finish w₀) act w fun _ w' =>
      Advances h s valid given others note own w w' note own := by
  refine ht.meets hact hv hl.posed.drawn.linked ?_
  intro _ w' _ hv' ha
  exact ⟨hl.apart ha, hv', ha.onward, .refl h s valid given w note own⟩

theorem Laid.foreignAll {α : Type} {f : α → Act κ υ Unit}
    (hf : ∀ a, Foreign h s (Known valid) finish Unit (f a)) (as : List α) :
    Meets (Interrupted h s (Known valid) finish w₀) (as.forM f) w fun _ w' =>
      Advances h s valid given others note own w w' note own := by
  refine forM ?_ as (.refl hl hv)
  intro a v hadv
  refine (hadv.1.foreign ht hadv.2.1 (hf a)).mono ?_
  intro _ w' hadv'
  exact hadv.trans hadv'

theorem Laid.checkAny :
    Meets (Interrupted h s (Known valid) finish w₀) (Reactive.check h i) w
      fun _ w' => ∃ note' own', Advances h s valid given others note own w w' note' own' ∧
        ∀ b ∈ s.blocks, b.watcher = i → b.Current given note' := by
  by_cases hi : ∃ b ∈ s.blocks, b.watcher = i
  · obtain ⟨b, hb, rfl⟩ := hi
    refine (hl.check ht hv hb).mono ?_
    rintro _ w' ⟨note', own', hadv, hcurrent⟩
    refine ⟨note', own', hadv, ?_⟩
    intro x hx hsame
    obtain rfl := inj_on_of_nodup_map hl.posed.formed.watchers hx hb hsame
    exact hcurrent
  · have hother : ∀ b ∈ s.blocks, b.watcher ≠ i := fun b hb he => hi ⟨b, hb, he⟩
    refine (hl.foreign ht hv (.check i hother)).mono ?_
    intro _ w' hadv
    exact ⟨note, own, hadv, fun b hb he => absurd he (hother b hb)⟩

theorem Laid.checkFrom (index : Nat) (last : Option Location)
    (hd : d < w.detectors.size) (hn : w₀.watchers.size + slack ≤ n + index)
    (hindex : index ≤ w.watchers.size) : Meets (Interrupted h s (Known valid) finish w₀)
      (Reactive.checkFrom h d position n index last) w fun _ w' => ∃ note' own',
        Advances h s valid given others note own w w' note' own' ∧
        (d = s.owner → ∀ b ∈ s.blocks, ∀ i, index ≤ i → (watchersOf w d)[i]? = some b.watcher →
          b.Current given note') := by
  induction n generalizing index last note own w with
  | zero =>
    rw [Nat.zero_add] at hn
    exact .exhausted (.inr (Nat.le_trans hn hindex))
  | succ n ih =>
    have hdetector : w.detectors[d]? = some w.detectors[d] := Array.getElem?_eq_getElem hd
    have hwatchers : watchersOf w d = w.detectors[d].watchers := by
      rw [watchersOf, hdetector]
    rw [Reactive.checkFrom, bind_iff, find_iff hdetector, ← hwatchers]
    cases hi : (watchersOf w d)[index]? with
    | none =>
      refine ⟨note, own, .refl hl hv, ?_⟩
      intro _ b _ i hle hget
      rw [getElem?_eq_none_iff] at hi
      rw [getElem?_eq_none (Nat.le_trans hi hle)] at hget
      cases hget
    | some i =>
      rw [bind_iff]
      refine (hl.checkAny ht hv).and_returns.mono ?_
      rintro counts u ⟨hret, note', own', hadv, hcurrent⟩
      have hlt : i < u.watchers.size := (lt_size_of_check hret).trans_le hadv.2.2.1.stored
      -- the rest of the walk, and what it leaves of what is up to date by now
      have hrest : ∀ last', Meets (Interrupted h s (Known valid) finish w₀)
          (Reactive.checkFrom h d position n (index + 1) last') u fun _ w' =>
          ∃ note'' own'', Advances h s valid given others note own w w' note'' own'' ∧
            (d = s.owner → ∀ b ∈ s.blocks, ∀ j, index ≤ j →
              (watchersOf w d)[j]? = some b.watcher → b.Current given note'') := by
        intro last'
        have hfound : index < (watchersOf w d).length := (List.getElem?_eq_some_iff.mp hi).1
        have hindex' := hfound.trans_le hl.posed.filed.hierarchy.length_le
        refine (ih hadv.1 hadv.2.1 (index + 1) last'
          (hd.trans_le hadv.2.2.1.detectors) (by omega)
          (Nat.le_trans hindex' hadv.2.2.1.stored)).mono ?_
        rintro _ w' ⟨note'', own'', hadv', hlater⟩
        refine ⟨note'', own'', hadv.trans hadv', ?_⟩
        rintro rfl b hb j hle hget
        rcases Nat.eq_or_lt_of_le hle with rfl | hlt
        · have hsame : b.watcher = i := Option.mem_unique hget hi
          exact hadv'.2.2.2.current hb (hcurrent b hb hsame)
        · refine hlater rfl b hb j hlt ?_
          obtain ⟨more, hmore⟩ := hadv.2.2.1.listed
          have hj : j < (watchersOf w s.owner).length := (List.getElem?_eq_some_iff.mp hget).1
          rw [← hmore, getElem?_append_left hj]
          exact hget
      cases counts with
      | false => exact hrest last
      | true =>
        rw [if_pos rfl, bind_iff, find_iff (Array.getElem?_eq_getElem hlt)]
        exact hrest _

theorem Laid.visitFrom (visited queue : List DetectorId) (position : Nat)
    (last : Option Location) (hw : Toured s.owner visited queue w) (ho : Onward s w₀ w)
    (hn : w₀.detectors.size + slack ≤ n + visited.length) :
    Meets (Interrupted h s (Known valid) finish w₀)
      (Reactive.visitFrom h n queue position last) w fun _ w' => ∃ note' own',
        Advances h s valid given others note own w w' note' own' ∧
        (queue.head? = some s.owner → ∀ b ∈ s.blocks, b.Current given note') := by
  induction n generalizing visited queue position last note own w with
  | zero =>
    rw [Nat.zero_add] at hn
    exact .exhausted (.inl (Nat.le_trans hn hw.length_le))
  | succ n ih =>
    cases queue with
    | nil => exact ⟨note, own, .refl hl hv, by simp⟩
    | cons d queue =>
      have hd := (hw.known d (by simp)).2
      rw [Reactive.visitFrom, bind_iff,
        find_iff (Array.getElem?_eq_getElem hd), bind_iff]
      refine (hl.foreignAll ht hv (fun k => .prelude k) _).mono ?_
      intro _ u hadv
      have hdu := hd.trans_le hadv.2.2.1.detectors
      have hstored := (ho.trans hadv.2.2.1).stored
      rw [bind_iff, get_iff, bind_iff]
      refine (hadv.1.checkFrom ht hadv.2.1 0 last hdu
        (Nat.add_le_add_right hstored slack) (Nat.zero_le _)).mono ?_
      rintro last' x ⟨note', own', hadv', hcurrent⟩
      have hpast := hadv.trans hadv'
      have hdx := hd.trans_le hpast.2.2.1.detectors
      have hget : x.detectors[d]? = some x.detectors[d] := Array.getElem?_eq_getElem hdx
      rw [bind_iff, find_iff hget, ← childrenOf_eq hget]
      have hvisit := (hw.onward hpast.2.2.1).visit hpast.1.posed.filed.hierarchy
      have hleft : w₀.detectors.size + slack ≤ n + (visited ++ [d]).length := by
        rw [length_append, length_singleton]
        omega
      refine (ih hpast.1 hpast.2.1 (visited ++ [d]) _ (position + 1) last' hvisit
        (ho.trans hpast.2.2.1) hleft).mono ?_
      rintro _ w' ⟨note'', own'', hadv'', -⟩
      refine ⟨note'', own'', hpast.trans hadv'', ?_⟩
      intro hhead b hb
      obtain rfl : d = s.owner := by simpa using hhead
      obtain ⟨i, hi⟩ := mem_iff_getElem?.mp (hadv.1.posed.filed.listed b hb)
      exact hadv''.2.2.2.current hb (hcurrent rfl b hb i (Nat.zero_le i) hi)

theorem Laid.pass (ho : Onward s w₀ w) :
    Meets (Interrupted h s (Known valid) finish w₀) (Reactive.pass h s.owner) w
      fun _ w' => ∃ note' own', Advances h s valid given others note own w w' note' own' ∧
        ∀ b ∈ s.blocks, b.Current given note' := by
  rw [Reactive.pass, bind_iff, get_iff]
  have hf := hl.posed.filed
  refine (hl.visitFrom ht hv [] [s.owner] 0 none (.start hf.hierarchy hf.alive) ho
    (Nat.add_le_add_right ho.detectors slack)).mono ?_
  rintro _ w' ⟨note', own', hadv, hcurrent⟩
  exact ⟨note', own', hadv, hcurrent rfl⟩

theorem Laid.passesFrom (made : Nat) (last : Option Location) (ho : Onward s w₀ w) :
    Meets (Interrupted h s (Known valid) finish w₀)
      (Reactive.passesFrom h s.owner n made last) w fun _ w' => ∃ note' own',
        Advances h s valid given others note own w w' note' own' ∧
        (n ≠ 0 → ∀ b ∈ s.blocks, b.Current given note') := by
  induction n generalizing made last note own w with
  | zero => exact ⟨note, own, .refl hl hv, by simp⟩
  | succ n ih =>
    rw [Reactive.passesFrom, bind_iff]
    refine (hl.pass ht hv ho).mono ?_
    rintro r u ⟨note', own', hadv, hcurrent⟩
    cases r with
    | none => exact ⟨note', own', hadv, fun _ => hcurrent⟩
    | some l =>
      refine (ih hadv.1 hadv.2.1 (made + 1) (some l) (ho.trans hadv.2.2.1)).mono ?_
      rintro _ w' ⟨note'', own'', hadv', -⟩
      exact ⟨note'', own'', hadv.trans hadv', fun _ b hb => hadv'.2.2.2.current hb (hcurrent b hb)⟩

theorem Laid.drain : Advances h s valid given others note own w
      { w with detectors := w.detectors.modify s.owner fun c => { c with onces := [] } }
      note own := by
  have hchildren := childrenOf_modify_of (w := w) (f := fun c => { c with onces := [] })
    (fun _ => rfl) s.owner
  have hlisted := watchersOf_modify_of (w := w) (f := fun c => { c with onces := [] })
    (fun _ => rfl) s.owner s.owner
  have hf := hl.posed.filed
  have hfiled : Filed s others note
      { w with detectors := w.detectors.modify s.owner fun c => { c with onces := [] } } := by
    constructor
    · simpa using hf.alive
    · exact hf.hierarchy.modify s.owner (fun _ => .refl _) fun _ => .refl _
    · rw [hchildren]
      exact hf.children
    · rw [hlisted]
      exact hf.listed
    · exact hf.watchers
    · exact hf.records
  refine ⟨⟨⟨hl.posed.formed, hfiled, hl.posed.drawn, hl.posed.worded⟩, hl.displays, hl.bare⟩,
    ht.upkeep given w _ hv .drain, ?_, .refl h s valid given w note own⟩
  exact ⟨le_rfl, by simp, le_rfl, fun j _ _ hc => hchildren j ▸ hc,
    hlisted ▸ prefix_rfl⟩

theorem Laid.digest : Meets (Interrupted h s (Known valid) finish w)
      (Reactive.digest h s.owner finish) w fun _ w' => ∃ note' own',
        Advances h s valid given others note own w w' note' own' ∧
        ∀ b ∈ s.blocks, b.Current given note' := by
  unfold Reactive.digest digestReport
  rw [bind_iff, bind_iff]
  refine (hl.passesFrom ht hv 0 none (.refl s w)).mono ?_
  rintro report u ⟨note', own', hadv, hcurrent⟩
  have hcurrent := hcurrent (by decide)
  rw [bind_iff]
  refine (hadv.1.foreign ht hadv.2.1 .finish).mono ?_
  intro _ x hadv₁
  have hpast := hadv.trans hadv₁
  rw [bind_iff, find_iff (Array.getElem?_eq_getElem hpast.1.posed.filed.alive)]
  have hadv₂ := hpast.1.drain ht hpast.2.1
  simp only [updateDetector, bind_iff, modify_iff]
  refine (hadv₂.1.foreignAll ht hadv₂.2.1 (fun k => .once k) _).mono ?_
  intro _ w' hadv₃
  exact ⟨note', own', hpast.trans (hadv₂.trans hadv₃), hcurrent⟩

end ReactiveMarkup.Reactive
