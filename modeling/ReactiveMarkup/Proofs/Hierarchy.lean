import Mathlib.Data.List.Perm.Subperm
import ReactiveMarkup.Proofs.OwnedChildren

/-! # The hierarchy of detectors

Who lists which watchers and which children. Detectors are made below older ones and never find
another parent.
-/

namespace ReactiveMarkup.Reactive

open Array

variable {κ υ : Type}

def watchersOf (w : World κ υ) (j : DetectorId) : List WatcherId :=
  match w.detectors[j]? with
  | some c => c.watchers
  | none => []

variable {w w' : World κ υ} {f : Detector κ → Detector κ} {owner c : DetectorId}

theorem watchersOf_modify_of (hf : ∀ c, (f c).watchers = c.watchers) (j k : DetectorId) :
    watchersOf { w with detectors := w.detectors.modify j f } k = watchersOf w k := by
  unfold watchersOf
  by_cases hj : j = k
  · cases hk : w.detectors[k]? <;> simp [getElem?_modify, hj, hk, hf]
  · simp [getElem?_modify, hj]

theorem watchersOf_modify_sublist (hf : ∀ c, (f c).watchers.Sublist c.watchers) :
    (watchersOf { w with detectors := w.detectors.modify j f } k).Sublist (watchersOf w k) := by
  unfold watchersOf
  by_cases hj : j = k
  · cases hk : w.detectors[k]? <;> simp [getElem?_modify, hj, hk, hf]
  · simp [getElem?_modify, hj]

theorem childrenOf_modify_sublist (hf : ∀ c, (f c).children.Sublist c.children) :
    (childrenOf { w with detectors := w.detectors.modify j f } k).Sublist (childrenOf w k) := by
  unfold childrenOf
  by_cases hj : j = k
  · cases hk : w.detectors[k]? <;> simp [getElem?_modify, hj, hk, hf]
  · simp [getElem?_modify, hj]

section

variable (hret : Returns (newChild owner) w c w')
include hret

theorem newChild_watchersOf (j : DetectorId) : watchersOf w' j = watchersOf w j := by
  obtain ⟨e, _, -, -, rfl, rfl⟩ := newChild_inv hret
  refine (watchersOf_modify_of (by simp) _ _).trans ?_
  by_cases hs : j = w.detectors.size <;>
    simp [watchersOf, World.sprout, getElem?_push, hs]

theorem newChild_childrenOf (hj : j ≠ owner) : childrenOf w' j = childrenOf w j := by
  obtain ⟨e, _, -, -, rfl, rfl⟩ := newChild_inv hret
  rw [childrenOf_modify_ne hj.symm]
  by_cases hs : j = w.detectors.size <;>
    simp [childrenOf, World.sprout, getElem?_push, hs]

theorem newChild_settled (j x : DetectorId) (hx : x < w.detectors.size)
    (hm : x ∈ childrenOf w' j) : x ∈ childrenOf w j := by
  obtain ⟨rfl, -, hchildren⟩ := newChild_eq hret
  by_cases hj : j = owner
  · subst hj
    rw [hchildren] at hm
    have hne : x ≠ w.detectors.size := Nat.ne_of_lt hx
    simpa [hne] using hm
  · rwa [newChild_childrenOf hret hj] at hm

end

theorem length_le_of_nodup {l : List Nat} (hd : l.Nodup) (hl : ∀ i ∈ l, i < n) : l.length ≤ n := by
  have hsub : l ⊆ List.range n := fun i hi => List.mem_range.mpr (hl i hi)
  have hle := (hd.subperm hsub).length_le
  rwa [List.length_range] at hle

/-- A detector is a child of one older detector at most, and lists watchers that exist. -/
structure Hierarchy (w : World κ υ) : Prop where
  once : ∀ j, (childrenOf w j).Nodup
  newer : ∀ j, ∀ c ∈ childrenOf w j, j < c ∧ c < w.detectors.size
  parent : ∀ i j c, c ∈ childrenOf w i → c ∈ childrenOf w j → i = j
  distinct : ∀ j, (watchersOf w j).Nodup
  stored : ∀ j, ∀ i ∈ watchersOf w j, i < w.watchers.size

namespace Hierarchy

theorem of_same (ht : Hierarchy w) (hd : w'.detectors = w.detectors)
    (hs : w'.watchers.size = w.watchers.size) : Hierarchy w' := by
  cases w
  cases hd
  exact { ht with stored := hs ▸ ht.stored }

theorem modify (ht : Hierarchy w) (j : DetectorId) (hc : ∀ c, (f c).children.Sublist c.children)
    (hw : ∀ c, (f c).watchers.Sublist c.watchers) :
    Hierarchy { w with detectors := w.detectors.modify j f } where
  once := fun k => (ht.once k).sublist (childrenOf_modify_sublist hc)
  newer := by
    intro k c hm
    rw [size_modify]
    exact ht.newer k c ((childrenOf_modify_sublist hc).subset hm)
  parent := fun i k c hi hk => ht.parent i k c ((childrenOf_modify_sublist hc).subset hi)
    ((childrenOf_modify_sublist hc).subset hk)
  distinct := fun k => (ht.distinct k).sublist (watchersOf_modify_sublist hw)
  stored := fun k i hm => ht.stored k i ((watchersOf_modify_sublist hw).subset hm)

theorem length_le (ht : Hierarchy w) : (watchersOf w j).length ≤ w.watchers.size :=
  length_le_of_nodup (ht.distinct j) (ht.stored j)

theorem adopt (ht : Hierarchy w) (ha : owner < w.detectors.size)
    (hret : Returns (newChild owner) w c w') : Hierarchy w' := by
  obtain ⟨rfl, hsize, hchildren⟩ := newChild_eq hret
  have hother := fun j => newChild_childrenOf (j := j) hret
  have hwatchers := newChild_watchersOf hret
  have hstored : w'.watchers = w.watchers := by
    obtain ⟨ds, rfl⟩ := newChild_world hret
    rfl
  -- a child is the new one, below the owner, or was one before
  have hmem : ∀ j x, x ∈ childrenOf w' j →
      x ∈ childrenOf w j ∨ j = owner ∧ x = w.detectors.size := by
    intro j x hx
    by_cases hj : j = owner
    · subst hj
      rw [hchildren] at hx
      simpa using hx
    · rw [hother j hj] at hx
      exact .inl hx
  have hold : ∀ j, w.detectors.size ∉ childrenOf w j := fun j hm =>
    Nat.lt_irrefl _ (ht.newer j _ hm).2
  constructor
  · intro j
    by_cases hj : j = owner
    · subst hj
      rw [hchildren, ← List.concat_eq_append]
      exact (ht.once j).concat (hold j)
    · rw [hother j hj]
      exact ht.once j
  · intro j x hx
    rw [hsize]
    rcases hmem j x hx with hx | ⟨rfl, rfl⟩
    · exact ⟨(ht.newer j x hx).1, Nat.lt_succ_of_lt (ht.newer j x hx).2⟩
    · exact ⟨ha, Nat.lt_succ_self _⟩
  · intro i j x hi hj
    rcases hmem i x hi with hi | ⟨rfl, rfl⟩
    · rcases hmem j x hj with hj | ⟨rfl, rfl⟩
      · exact ht.parent i j x hi hj
      · exact absurd hi (hold i)
    · rcases hmem j _ hj with hj | ⟨rfl, -⟩
      · exact absurd hj (hold j)
      · rfl
  · intro j
    rw [hwatchers]
    exact ht.distinct j
  · intro j
    rw [hwatchers, hstored]
    exact ht.stored j

end Hierarchy

end ReactiveMarkup.Reactive
