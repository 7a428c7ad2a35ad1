import ReactiveMarkup.Proofs.Forest

/-! # Lists of children

What an insertion, a replacement and the removal of a range make of the lists of children and of the
parents of all nodes.
-/

namespace ReactiveMarkup.Reactive.Document

open List

variable {ρ : Type} {d e : Document ρ} {p n a b : NodeId} {front back seg : List NodeId}

/-- The nodes that an insertion moves: the node itself, or the children of a fragment. -/
def moved (d : Document ρ) (n : NodeId) : List NodeId :=
  if d.kind n = .fragment then d.children n else [n]

/-- The nodes `ns` have left their parents for `p`, the nodes `gone` have left theirs for none, and
the children of `p` are now `cs`. No other node has other children or another parent. -/
structure Regrouped (d e : Document ρ) (p : NodeId) (cs ns gone : List NodeId) : Prop where
  linked : e.Linked
  children : e.children p = cs
  others : ∀ q, q ≠ p → e.children q = (d.children q).filter (· ∉ ns)
  parent? : ∀ x, e.parent? x = if x ∈ gone then none else if x ∈ ns then some p else d.parent? x

section

variable (h : d.Linked) (hp : p < d.nodes.size) (hn : n < d.nodes.size) (hne : p ≠ n)
include h hp hn hne

theorem insertBefore_regroups (hc : (d.children p).erase n = front ++ back) :
    Regrouped d (d.insertBefore p n back.head?) p (front ++ d.moved n ++ back) (d.moved n) [] := by
  by_cases hk : d.kind n = .fragment
  · rw [erase_of_not_mem fun hm => h.plain hm hk] at hc
    obtain ⟨hg, hcs⟩ := insertFragment_between h hp hn hk hne hc
    rw [moved, if_pos hk]
    exact ⟨hg.linked, hcs, hg.others, by simpa using hg.parent?⟩
  · have hnodup := (h.nodup p).erase n
    have hr : back.head? ≠ some n := fun he => by
      have hm : n ∈ (d.children p).erase n := by
        rw [hc]
        exact mem_append_right _ (mem_of_head? he)
      exact (h.nodup p).not_mem_erase hm
    rw [insertBefore_plain hk, moved, if_neg hk]
    refine ⟨linked_place h hp hn hk, ?_, fun q hq => ?_, fun x => ?_⟩
    · rw [hc] at hnodup
      rw [children_place h.parent_of_mem hp hr, if_pos rfl, hc, putAt_head hnodup]
      simp
    · rw [children_place h.parent_of_mem hp hr, if_neg hq, (h.nodup q).erase_eq_filter]
      refine filter_congr fun x _ => ?_
      by_cases hx : x = n <;> simp [hx]
    · rw [parent?_place h.parent_of_mem hn hr]
      simp

theorem replaceChild_regroups
    (hold : old ≠ n) (hc : (d.children p).erase n = front ++ old :: back) :
    Regrouped d (d.replaceChild p n old) p (front ++ d.moved n ++ back) (d.moved n) [old] := by
  have hreg := insertBefore_regroups h hp hn hne hc
  have hnodup := hreg.linked.nodup p
  have hmem : old ∈ (d.insertBefore p n (some old)).children p := by
    rw [head?_cons] at hreg
    simp [hreg.children]
  rw [hreg.children] at hnodup
  rw [head?_cons] at hreg
  rw [replaceChild, if_neg (Ne.symm hold)]
  refine ⟨linked_detach hreg.linked, ?_, fun q hq => ?_, fun x => ?_⟩
  · rw [children_detach hreg.linked.parent_of_mem, hreg.children, erase_append_right,
      erase_cons_head]
    exact fun hm => (nodup_append.mp hnodup).2.2 old hm old mem_cons_self rfl
  · rw [children_detach hreg.linked.parent_of_mem, erase_of_not_mem, hreg.others q hq]
    exact fun hm => hq (hreg.linked.same_parent hm hmem)
  · rw [parent?_detach, hreg.parent?]
    simp

end

theorem parent?_detachAll {ns : List NodeId} {x : NodeId} :
    (ns.foldl detach d).parent? x = if x ∈ ns then none else d.parent? x := by
  induction ns generalizing d with
  | nil => simp
  | cons n ns ih =>
    rw [foldl_cons, ih, parent?_detach]
    grind

theorem removeRange_regroups (h : d.Linked) (hc : d.children p = front ++ seg ++ back)
    (he : ends seg = some (a, b)) : Regrouped d (d.removeRange a b) p (front ++ back) [] seg := by
  have hnodup := h.nodup p
  rw [hc] at hnodup
  rw [removeRange_eq h hc he]
  refine ⟨linked_detachAll h, ?_, fun q hq => ?_, fun x => ?_⟩
  · rw [children_detachAll h, hc, filter_not_mem_middle hnodup]
  · rw [children_detachAll h]
    refine filter_congr fun x hx => ?_
    have hout : x ∉ seg := fun hm => hq (h.same_parent hx (by simp [hc, hm]))
    simp [hout]
  · rw [parent?_detachAll]
    simp

/-- A node that is inserted leaves its place and stands before the reference, or last; of a fragment
the children do so, in their order. A node that replaces another child takes its place, and the
other one has no parent; nothing is replaced by itself. A range that is removed is cut out of the
list. No other list of children and no other parent changes. -/
theorem child_list_semantics (h : d.Linked) :
    (∀ p n, p < d.nodes.size → n < d.nodes.size → p ≠ n →
      (∀ r ∈ d.children p, r ≠ n → ∃ front back, (d.children p).erase n = front ++ r :: back ∧
        Regrouped d (d.insertBefore p n (some r)) p (front ++ d.moved n ++ r :: back) (d.moved n)
          [] ∧
        Regrouped d (d.replaceChild p n r) p (front ++ d.moved n ++ back) (d.moved n) [r]) ∧
      Regrouped d (d.insertBefore p n none) p ((d.children p).erase n ++ d.moved n) (d.moved n) [] ∧
      (d.kind n = .fragment → ∀ reference, reference ≠ some n →
        (d.insertBefore p n reference).children n = [])) ∧
    (∀ p n, d.replaceChild p n n = d) ∧
    ∀ p front seg back a b, d.children p = front ++ seg ++ back → ends seg = some (a, b) →
      Regrouped d (d.removeRange a b) p (front ++ back) [] seg := by
  refine ⟨fun p n hp hn hne => ⟨fun r hr hrn => ?_, ?_, fun hk reference href => ?_⟩,
    fun p n => if_pos rfl, fun p front seg back a b => removeRange_regroups h⟩
  · obtain ⟨front, back, hc⟩ := List.append_of_mem ((List.mem_erase_of_ne hrn).mpr hr)
    exact ⟨front, back, hc, insertBefore_regroups h hp hn hne hc,
      replaceChild_regroups h hp hn hne hrn hc⟩
  · simpa using insertBefore_regroups h hp hn hne
      (List.append_nil ((d.children p).erase n)).symm
  · obtain ⟨-, hch, -⟩ := linked_fragment h hp hn hk href
    rw [hch, if_neg (Ne.symm hne), children_setChildren hn, if_pos rfl]

theorem child_list_semantics_turnedList :
    ∃ d : Document Unit, d.Linked ∧ d.children 0 = [3, 4] ∧ d.children 4 = [5, 6] ∧
      Regrouped d (d.insertBefore 0 6 (some 4)) 0 [3, 6, 4] [6] [] := by
  refine ⟨_, edited_turnedList.forest.linked, by decide, by decide, ?_⟩
  obtain ⟨front, back, hc, hreg, -⟩ := ((child_list_semantics edited_turnedList.forest.linked).1 0 6
    (by decide) (by decide) (by decide)).1 4 (by decide) (by decide)
  have herase : ((turnedList.foldl (Edit.apply Fragment.read) ({} : Document Unit)).children 0).erase
      6 = [3, 4] := by decide
  obtain ⟨rfl, rfl⟩ : front = [3] ∧ back = [] := by
    rcases front with _ | ⟨x, _ | ⟨y, front⟩⟩ <;> simp_all
  exact hreg

theorem replaceChild_self_keeps_parent :
    ∃ d : Document Unit, d.Linked ∧ 3 ∈ d.children 0 ∧ (d.replaceChild 0 3 3).parent? 3 = some 0 :=
  ⟨_, edited_turnedList.forest.linked, by decide, by decide⟩

end ReactiveMarkup.Reactive.Document
