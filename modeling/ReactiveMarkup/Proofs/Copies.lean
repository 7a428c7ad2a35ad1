import ReactiveMarkup.Proofs.Links

/-! # Copies

A copy consists of new nodes; nothing else of the document changes.
-/

namespace ReactiveMarkup.Reactive

open Rose

namespace Rose

variable {α β : Type}

theorem mem_preorderAll : x ∈ preorderAll ts ↔ ∃ t ∈ ts, x ∈ t.preorder := by
  induction ts with
  | nil => simp [preorderAll]
  | cons t ts ih => simp [preorderAll, ih]

theorem forall_preorderAll_cons {P : α → Prop} : (∀ x ∈ preorderAll (t :: ts), P x) ↔
    P t.label ∧ (∀ x ∈ preorderAll t.children, P x) ∧ ∀ x ∈ preorderAll ts, P x := by
  cases t
  simp [preorderAll, preorder, label, children, or_imp, forall_and]

mutual

theorem preorder_map (f : α → β) : ∀ t : Rose α, (t.map f).preorder = t.preorder.map f
  | .node a cs => by simp [map, preorder, preorderAll_mapAll f cs]

theorem preorderAll_mapAll (f : α → β) :
    ∀ ts : List (Rose α), preorderAll (mapAll f ts) = (preorderAll ts).map f
  | [] => rfl
  | t :: ts => by simp [mapAll, preorderAll, preorder_map f t, preorderAll_mapAll f ts]

end

end Rose

namespace Document

variable {ρ : Type} {d : Document ρ}

/-! ## New nodes -/

section

variable (c : Content) (j : NodeId)

theorem getElem?_add :
    (d.add c).2.nodes[j]? = if j = d.nodes.size then some { content := c } else d.nodes[j]? := by
  simp only [add, Array.getElem?_push]

@[simp] theorem children_add : (d.add c).2.children j = d.children j := by
  unfold children
  rw [getElem?_add]
  split
  · next hj => simp [hj]
  · rfl

@[simp] theorem parent?_add : (d.add c).2.parent? j = d.parent? j := by
  unfold parent?
  rw [getElem?_add]
  split
  · next hj => simp [hj]
  · rfl

theorem content_add :
    (d.add c).2.content j = if j = d.nodes.size then c else d.content j := by
  unfold content
  rw [getElem?_add]
  split <;> rfl

theorem kind_add : (d.add c).2.kind j = if j = d.nodes.size then c.kind else d.kind j := by
  rw [kind, content_add]
  split <;> rfl

end

@[simp] theorem size_add : (d.add c).2.nodes.size = d.nodes.size + 1 := by
  simp [add]

theorem linked_add (h : d.Linked) : (d.add c).2.Linked where
  parent_of_mem := by
    intro p x hx
    rw [children_add] at hx
    rw [parent?_add]
    exact h.parent_of_mem hx
  mem_of_parent := by
    intro p x hx
    rw [parent?_add] at hx
    rw [children_add]
    exact h.mem_of_parent hx
  nodup := by
    intro p
    rw [children_add]
    exact h.nodup p
  plain := by
    intro p x hx
    rw [children_add] at hx
    rw [kind_add, if_neg ((h.lt_size hx).ne)]
    exact h.plain hx

section Link

variable {p n : NodeId}

theorem link_eq :
    d.link p n = (d.setParent n (some p)).setChildren p (d.children p ++ [n]) := by
  have h := update_children_eq (d := d.setParent n (some p)) p (· ++ [n])
  rw [children_setParent] at h
  exact h

@[simp] theorem size_link : (d.link p n).nodes.size = d.nodes.size := by
  simp [link_eq]

@[simp] theorem kind_link (j : NodeId) : (d.link p n).kind j = d.kind j := by
  simp [link_eq]

theorem parent?_link (hn : n < d.nodes.size) :
    (d.link p n).parent? j = if j = n then some p else d.parent? j := by
  rw [link_eq, parent?_setChildren, parent?_setParent hn]

theorem children_link (hp : p < d.nodes.size) :
    (d.link p n).children j = if j = p then d.children p ++ [n] else d.children j := by
  rw [link_eq, children_setChildren (by simpa using hp), children_setParent]

theorem getElem?_link (hn : j ≠ n) (hp : j ≠ p) : (d.link p n).nodes[j]? = d.nodes[j]? := by
  rw [link, getElem?_update, if_neg (Ne.symm hp), getElem?_update, if_neg (Ne.symm hn)]

theorem linked_link (h : d.Linked) (hp : p < d.nodes.size) (hn : n < d.nodes.size)
    (hl : d.parent? n = none) (hk : d.kind n ≠ .fragment) : (d.link p n).Linked := by
  have hloose := h.not_mem_of_loose hl
  refine h.gather p [n] kind_link (by simpa using hk) ?_ ?_ ?_
  · intro j
    rw [parent?_link hn]
    simp
  · intro q c
    rw [children_link hp]
    by_cases hq : q = p
    · subst hq
      have := hloose q
      by_cases hc : c = n <;> simp [hc, this]
    · have := hloose q
      by_cases hc : c = n <;> simp [hc, hq, this]
  · intro q
    rw [children_link hp]
    split
    · refine List.nodup_append.mpr ⟨h.nodup p, by simp, ?_⟩
      rintro a ha b hb rfl
      obtain rfl : a = n := by simpa using hb
      exact hloose p ha
    · exact h.nodup q

end Link

/-! ## Planting -/

/-- What is true of a document to which nodes have been added below `p`. -/
structure Planted (p : NodeId) (d e : Document ρ) : Prop where
  linked : e.Linked
  grown : d.nodes.size ≤ e.nodes.size
  others : ∀ n < d.nodes.size, n ≠ p → e.nodes[n]? = d.nodes[n]?
  parent : e.parent? p = d.parent? p
  kind : e.kind p = d.kind p

/-- What is true of a document to which a tree of new nodes has been added. -/
structure Copied (c : Content) (d e : Document ρ) : Prop where
  linked : e.Linked
  grown : d.nodes.size < e.nodes.size
  others : ∀ n < d.nodes.size, e.nodes[n]? = d.nodes[n]?
  loose : e.parent? d.nodes.size = none
  kind : e.kind d.nodes.size = c.kind

namespace Copied

variable {c : Content} {e : Document ρ} {n : NodeId}

section

variable (hc : Copied c d e) (hn : n < d.nodes.size)
include hc hn

theorem children_of_lt : e.children n = d.children n := by
  rw [children, children, hc.others n hn]

theorem parent?_of_lt : e.parent? n = d.parent? n := by
  rw [parent?, parent?, hc.others n hn]

theorem kind_of_lt : e.kind n = d.kind n := by
  rw [Document.kind, Document.kind, content, content, hc.others n hn]

end

end Copied

theorem plantAll_cons :
    plantAll p (t :: ts) d = plantAll p ts ((plant t d).2.link p d.nodes.size) := by
  cases t
  rfl

mutual

theorem plant_copied : ∀ (t : Rose Content) (d : Document ρ), d.Linked →
    (∀ c ∈ preorderAll t.children, c.kind ≠ .fragment) →
    (plant t d).1 = d.nodes.size ∧ Copied t.label d (plant t d).2
  | .node c cs, d, h, hc => by
    have hp := plantAll_planted cs (d.add c).2 d.nodes.size (linked_add h) (by simp) hc
    refine ⟨rfl, hp.linked, ?_, ?_, ?_, ?_⟩
    · have := hp.grown
      rw [size_add] at this
      exact this
    · intro n hn
      have hne : n ≠ d.nodes.size := hn.ne
      refine (hp.others n (by simp; omega) hne).trans ?_
      rw [getElem?_add, if_neg hne]
    · refine hp.parent.trans ?_
      rw [parent?_add, parent?]
      simp
    · refine hp.kind.trans ?_
      simp [kind_add, label]

theorem plantAll_planted : ∀ (ts : List (Rose Content)) (d : Document ρ) (p : NodeId), d.Linked →
    p < d.nodes.size → (∀ c ∈ preorderAll ts, c.kind ≠ .fragment) →
    Planted p d (plantAll p ts d)
  | [], d, p, h, _, _ => ⟨h, le_rfl, fun _ _ _ => rfl, rfl, rfl⟩
  | t :: ts, d, p, h, hp, hts => by
    obtain ⟨hroot, hbelow, hrest⟩ := forall_preorderAll_cons.mp hts
    obtain ⟨-, hc⟩ := plant_copied t d h hbelow
    have hpe : p < (plant t d).2.nodes.size := hp.trans hc.grown
    have hne : p ≠ d.nodes.size := hp.ne
    have hl := linked_link hc.linked hpe hc.grown hc.loose
      (by rw [hc.kind]; exact hroot)
    have hsame := hc.others p hp
    have hrest := plantAll_planted ts ((plant t d).2.link p d.nodes.size) p hl
      (by simpa using hpe) hrest
    rw [plantAll_cons]
    refine ⟨hrest.linked, ?_, ?_, ?_, ?_⟩
    · have h1 := hrest.grown
      have h2 := hc.grown
      rw [size_link] at h1
      omega
    · intro n hn hnp
      have hns : n ≠ d.nodes.size := hn.ne
      rw [hrest.others n (by simpa using hn.trans hc.grown) hnp, getElem?_link hns hnp]
      exact hc.others n hn
    · rw [hrest.parent, parent?_link hc.grown, if_neg hne, parent?, hsame]
      rfl
    · rw [hrest.kind, kind_link, kind, content, hsame]
      rfl

end

theorem mem_idsTo_succ : j ∈ (d.idsTo (n + 1) i).preorder ↔
    j = i ∨ ∃ c ∈ d.children i, j ∈ (d.idsTo n c).preorder := by
  simp [idsTo, preorder, mem_preorderAll]

theorem mem_idsTo (h : j ∈ (d.idsTo n i).preorder) :
    j = i ∨ ∃ p ∈ (d.idsTo n i).preorder, j ∈ d.children p := by
  induction n generalizing i with
  | zero => exact .inl (List.mem_singleton.mp h)
  | succ n ih =>
    obtain rfl | ⟨c, hc, h⟩ := mem_idsTo_succ.mp h
    · exact .inl rfl
    · obtain rfl | ⟨p, hp, h⟩ := ih h
      · exact .inr ⟨i, List.mem_cons_self, hc⟩
      · exact .inr ⟨p, mem_idsTo_succ.mpr (.inr ⟨c, hc, hp⟩), h⟩

theorem lt_size_of_mem_ids (h : d.Linked) (hi : i < d.nodes.size) :
    ∀ j ∈ (d.ids i).preorder, j < d.nodes.size := by
  intro j hj
  obtain rfl | ⟨p, -, hj⟩ := mem_idsTo hj
  · exact hi
  · exact h.lt_size hj

theorem plain_contents (h : d.Linked) :
    ∀ c ∈ preorderAll (d.contents i).children, c.kind ≠ .fragment := by
  intro c hc
  unfold contents ids at hc
  cases hn : d.nodes.size with
  | zero =>
    rw [hn] at hc
    cases hc
  | succ n =>
    rw [hn] at hc
    change c ∈ preorderAll (mapAll d.content ((d.children i).map (d.idsTo n))) at hc
    rw [preorderAll_mapAll] at hc
    obtain ⟨j, hj, rfl⟩ := List.mem_map.mp hc
    obtain ⟨t, ht, hj⟩ := mem_preorderAll.mp hj
    obtain ⟨k, hk, rfl⟩ := List.mem_map.mp ht
    obtain rfl | ⟨p, -, hj⟩ := mem_idsTo hj
    · exact h.plain hk
    · exact h.plain hj

theorem clone_copied (h : d.Linked) :
    (d.clone i true).1 = d.nodes.size ∧ Copied (d.content i) d (d.clone i true).2 := by
  have hlabel : (d.contents i).label = d.content i := by
    unfold contents ids
    cases hn : d.nodes.size <;> rfl
  have := plant_copied (d.contents i) d h (plain_contents h)
  rw [hlabel] at this
  exact this

end Document

end ReactiveMarkup.Reactive
