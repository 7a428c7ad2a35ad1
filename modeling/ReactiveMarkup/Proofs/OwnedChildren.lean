import Mathlib.Data.List.Nodup
import ReactiveMarkup.Proofs.Outcome

/-! # The children of a detector

Who is a child of a detector, which of its children one of its blocks has made, and what is
destroyed. A block takes its children away before it destroys them.
-/

namespace ReactiveMarkup.Reactive

open List hiding after

variable {κ υ : Type}

def childrenOf (w : World κ υ) (j : DetectorId) : List DetectorId :=
  match w.detectors[j]? with
  | some c => c.children
  | none => []

def Destroyed (w : World κ υ) (c : DetectorId) : Prop :=
  ∃ e, w.detectors[c]? = some e ∧ e.destroyed = true

/-- No code of the user takes back the destruction of a detector, whether it returns or stops. -/
structure Host.NeverRevives (h : Host κ υ) : Prop where
  run : ∀ k o w c, Destroyed w c → Destroyed (outcome (h.run k o) w).2 c
  build : ∀ k j f n v w c, Destroyed w c → Destroyed (outcome (h.buildItem k j f n v) w).2 c

/-- From `w` to `w'` no detector of `some` has joined or left the children of the owner. -/
structure Spared (owner : DetectorId) (some : DetectorId → Prop) (w w' : World κ υ) : Prop where
  grown : w.detectors.size ≤ w'.detectors.size
  children : ∀ c, some c → (childrenOf w' owner).count c = (childrenOf w owner).count c
  bounded : (∀ c ∈ childrenOf w owner, c < w.detectors.size) →
    ∀ c ∈ childrenOf w' owner, c < w'.detectors.size

/-- Of the detectors `made` that a list has made, the children of its owner are those of `present`,
each once. -/
structure Held (owner : DetectorId) (made present : List DetectorId) (w : World κ υ) : Prop where
  alive : owner < w.detectors.size
  known : ∀ c ∈ made, c < w.detectors.size
  distinct : made.Nodup
  once : present.Nodup
  ours : ∀ c ∈ present, c ∈ made
  bounded : ∀ c ∈ childrenOf w owner, c < w.detectors.size
  count : ∀ c ∈ made, (childrenOf w owner).count c = present.count c

namespace Held

variable {owner : DetectorId} {made present : List DetectorId} {w w' : World κ υ}

theorem spared {some : DetectorId → Prop} (hh : Held owner made present w)
    (hs : Spared owner some w w') (hm : ∀ c ∈ made, some c) : Held owner made present w' where
  __ := hh
  alive := Nat.lt_of_lt_of_le hh.alive hs.grown
  known := fun c hc => Nat.lt_of_lt_of_le (hh.known c hc) hs.grown
  bounded := hs.bounded hh.bounded
  count := fun c hc => (hs.children c (hm c hc)).trans (hh.count c hc)

theorem of_detectors (hh : Held owner made present w) (hd : w'.detectors = w.detectors) :
    Held owner made present w' := by
  cases w
  cases hd
  exact { hh with }

theorem perm (hh : Held owner made present w) (hp : present.Perm present') :
    Held owner made present' w where
  __ := hh
  once := hp.nodup hh.once
  ours := fun c hc => hh.ours c (hp.mem_iff.mpr hc)
  count := fun c hc => (hh.count c hc).trans (hp.count_eq c)

theorem contributed (hh : Held owner made present w) :
    ((childrenOf w owner).filter (made.contains ·)).Perm present := by
  rw [perm_iff_count]
  intro c
  by_cases hc : c ∈ made
  · rw [count_filter (by simpa using hc), hh.count c hc]
  · rw [count_eq_zero_of_not_mem (fun hm => hc (hh.ours c hm)), count_eq_zero]
    intro hm
    exact hc (by simpa using (mem_filter.mp hm).2)

end Held

variable {owner c : DetectorId} {w w' : World κ υ} {f : Detector κ → Detector κ}

theorem childrenOf_modify (he : w.detectors[owner]? = some e) :
    childrenOf { w with detectors := w.detectors.modify owner f } owner = (f e).children := by
  simp [childrenOf, Array.getElem?_modify, he]

theorem childrenOf_modify_ne (hne : j ≠ k) :
    childrenOf { w with detectors := w.detectors.modify j f } k = childrenOf w k := by
  simp [childrenOf, Array.getElem?_modify, hne]

theorem childrenOf_modify_of (hf : ∀ c, (f c).children = c.children) (j k : DetectorId) :
    childrenOf { w with detectors := w.detectors.modify j f } k = childrenOf w k := by
  by_cases hj : j = k
  · cases hk : w.detectors[k]? <;> simp [childrenOf, Array.getElem?_modify, hj, hk, hf]
  · exact childrenOf_modify_ne hj

theorem childrenOf_eq (he : w.detectors[owner]? = some e) : childrenOf w owner = e.children := by
  simp [childrenOf, he]

theorem removeChild_eq (hret : Returns (removeChild owner c) w () w') :
    w'.detectors.size = w.detectors.size ∧
      childrenOf w' owner = (childrenOf w owner).filter (· != c) := by
  cases hret
  refine ⟨by simp, ?_⟩
  cases he : w.detectors[owner]? with
  | none => simp [childrenOf, Array.getElem?_modify, he]
  | some e => rw [childrenOf_modify he, childrenOf_eq he]

theorem removeChild_held (hh : Held owner made (before ++ c :: after) w)
    (hret : Returns (removeChild owner c) w () w') : Held owner made (before ++ after) w' := by
  obtain ⟨hsize, hchildren⟩ := removeChild_eq hret
  have hfilter : (before ++ c :: after).filter (· != c) = before ++ after := by
    have hc : c ∉ before := fun hm =>
      (nodup_append.mp hh.once).2.2 c hm c mem_cons_self rfl
    rw [← hh.once.erase_eq_filter, erase_append_right _ hc, erase_cons_head]
  have hsub : (before ++ after).Sublist (before ++ c :: after) :=
    List.Sublist.append_left (sublist_cons_self c after) before
  constructor
  · rw [hsize]
    exact hh.alive
  · rw [hsize]
    exact hh.known
  · exact hh.distinct
  · exact hh.once.sublist hsub
  · exact fun x hx => hh.ours x (hsub.subset hx)
  · intro x hx
    rw [hchildren] at hx
    rw [hsize]
    exact hh.bounded x (mem_filter.mp hx).1
  · intro x hx
    rw [hchildren, ← hfilter]
    by_cases hxc : x = c
    · subst hxc
      rw [count_eq_zero_of_not_mem (by simp), count_eq_zero_of_not_mem (by simp)]
    · rw [count_filter (by simpa using hxc), count_filter (by simpa using hxc),
        hh.count x hx]

def World.sprout (w : World κ υ) (root : DetectorId) : World κ υ :=
  { w with detectors := w.detectors.push { root } }

theorem World.getElem?_sprout (hc : w.detectors[c]? = some e) :
    (w.sprout root).detectors[c]? = some e := by
  have hlt := (Array.getElem?_eq_some_iff.mp hc).1
  rw [sprout, Array.getElem?_push_lt hlt, ← hc, Array.getElem?_eq_getElem hlt]

section

variable (hret : Returns (newChild owner) w c w')
include hret

theorem newChild_inv :
    ∃ p u, w.detectors[owner]? = some p ∧ c = w.detectors.size ∧ u = w.sprout p.root ∧
      w' = { u with detectors := u.detectors.modify owner fun d =>
        { d with children := d.children ++ [w.detectors.size] } } := by
  obtain ⟨p, v, hfind, hrest⟩ := returns_bind.mp hret
  obtain ⟨hp, rfl⟩ := returns_find.mp hfind
  cases hrest
  exact ⟨p, _, hp, rfl, rfl, rfl⟩

theorem newChild_eq : c = w.detectors.size ∧ w'.detectors.size = w.detectors.size + 1 ∧
      childrenOf w' owner = childrenOf w owner ++ [c] := by
  obtain ⟨e, _, he, rfl, rfl, rfl⟩ := newChild_inv hret
  refine ⟨rfl, by simp [World.sprout], ?_⟩
  rw [childrenOf_eq he, childrenOf_modify (World.getElem?_sprout he)]

theorem newChild_world : ∃ ds, w' = { w with detectors := ds } := by
  obtain ⟨e, _, -, -, rfl, rfl⟩ := newChild_inv hret
  exact ⟨_, rfl⟩

end

theorem newChild_returns (ha : owner < w.detectors.size) :
    ∃ c w', Returns (newChild owner) w c w' :=
  ⟨_, _, returns_bind.mpr ⟨_, w, returns_find.mpr ⟨Array.getElem?_eq_getElem ha, rfl⟩, rfl⟩⟩

theorem newChild_held (hh : Held owner made present w) (hret : Returns (newChild owner) w c w') :
    Held owner (made ++ [c]) (present ++ [c]) w' := by
  obtain ⟨rfl, hsize, hchildren⟩ := newChild_eq hret
  have hfresh : w.detectors.size ∉ made := fun hm => Nat.lt_irrefl _ (hh.known _ hm)
  have hgrown : ∀ {l : List Nat} {n : Nat}, (∀ x ∈ l, x < n) → ∀ x ∈ l ++ [n], x < n + 1 :=
    fun hl => forall_mem_append.mpr ⟨fun x hx => Nat.lt_succ_of_lt (hl x hx), by simp⟩
  constructor
  · rw [hsize]
    exact Nat.lt_succ_of_lt hh.alive
  · rw [hsize]
    exact hgrown hh.known
  · rw [← concat_eq_append]
    exact hh.distinct.concat hfresh
  · rw [← concat_eq_append]
    exact hh.once.concat fun hm => hfresh (hh.ours _ hm)
  · intro x hx
    rcases mem_append.mp hx with hx | hx
    · exact mem_append_left _ (hh.ours x hx)
    · exact mem_append_right _ hx
  · rw [hchildren, hsize]
    exact hgrown hh.bounded
  · intro x hx
    rw [hchildren, count_append, count_append]
    rcases mem_append.mp hx with hx | hx
    · rw [hh.count x hx]
    · obtain rfl : x = w.detectors.size := by simpa using hx
      rw [count_eq_zero_of_not_mem fun hm => Nat.lt_irrefl _ (hh.bounded _ hm),
        count_eq_zero_of_not_mem fun hm => hfresh (hh.ours _ hm)]

/-! ## Destruction -/

theorem Destroyed.of_detectors (hc : Destroyed w c) (hd : w'.detectors = w.detectors) :
    Destroyed w' c := by
  unfold Destroyed
  rw [hd]
  exact hc

theorem Destroyed.modify (hc : Destroyed w c) (j : DetectorId)
    (hf : ∀ e, e.destroyed = true → (f e).destroyed = true) :
    Destroyed { w with detectors := w.detectors.modify j f } c := by
  obtain ⟨e, he, hd⟩ := hc
  by_cases hj : j = c
  · refine ⟨f e, ?_, hf e hd⟩
    simp [Array.getElem?_modify, hj, he]
  · refine ⟨e, ?_, hd⟩
    simp [Array.getElem?_modify, hj, he]

theorem newChild_destroyed (hret : Returns (newChild owner) w c w') (hx : Destroyed w x) :
    Destroyed w' x := by
  obtain ⟨p, _, -, -, rfl, rfl⟩ := newChild_inv hret
  obtain ⟨e, he, hd⟩ := hx
  have hpush : Destroyed (w.sprout p.root) x := ⟨e, World.getElem?_sprout he, hd⟩
  exact hpush.modify owner fun _ hd => hd

theorem destroyTo_destroys (hn : h.NeverRevives) (j : DetectorId)
    (hc : Destroyed w c ∨ n ≠ 0 ∧ j = c ∧ c < w.detectors.size) :
    Meets (fun _ w' => Destroyed w' c) (destroyTo h n j) w fun _ w' => Destroyed w' c := by
  induction n generalizing j w with
  | zero =>
    rcases hc with hc | hc
    · exact hc
    · exact absurd rfl hc.1
  | succ n ih =>
    have hmark : Destroyed { w with detectors := w.detectors.modify j fun d =>
        { d with destroyed := true, watchers := [], preludes := [] } } c := by
      rcases hc with hc | ⟨_, rfl, hlt⟩
      · exact hc.modify j fun _ _ => rfl
      · refine ⟨{ w.detectors[j] with destroyed := true, watchers := [], preludes := [] }, ?_, rfl⟩
        simp [Array.getElem?_modify, Array.getElem?_eq_getElem hlt]
    have hclear := hmark.modify j (f := fun d => { d with cleanups := [] }) fun _ hd => hd
    simp only [destroyTo, updateDetector, Meets.bind_iff, Meets.modify_iff]
    refine Meets.find_of (fun _ => hmark) fun d _ => ?_
    refine (Meets.forM (fun (cleanup : Cleanup κ) v (hv : Destroyed v c) => ?_)
      d.cleanups hclear).mono fun _ v hv => ?_
    · refine Meets.guarded ?_
      cases cleanup with
      | hook k => exact Meets.always.mpr (hn.run k .plain v c hv)
      | removeListener node l => exact hv
      | destroy k => exact ih k (.inl hv)
    have hbare := hv.modify j (f := fun d => { d with children := [] }) fun _ hd => hd
    refine Meets.find_of (fun _ => hv) fun d _ => ?_
    exact Meets.forM (fun k u hu => ih k (.inl hu)) d.children hbare

theorem destroy_destroys (hn : h.NeverRevives) (hc : Destroyed w c ∨ j = c ∧ c < w.detectors.size)
    (hret : Returns (destroy h j) w () w') : Destroyed w' c := by
  have hfuel : w.detectors.size + slack ≠ 0 := by
    unfold slack
    omega
  have hmeets : Meets (fun _ w' => Destroyed w' c) (destroy h j) w fun _ w' => Destroyed w' c := by
    simp only [destroy, Meets.bind_iff, Meets.get_iff]
    exact destroyTo_destroys hn j (hc.imp_right fun hc => ⟨hfuel, hc⟩)
  rwa [Meets.of_outcome hret] at hmeets

end ReactiveMarkup.Reactive
