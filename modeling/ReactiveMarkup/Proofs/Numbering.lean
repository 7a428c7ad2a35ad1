import Mathlib.Data.List.Induction
import ReactiveMarkup.Proofs.Expansions
import ReactiveMarkup.Proofs.Spans

/-! # Numbered elements

Elements get their numbers when their tags are read, and both a walk of the tree and its outline
meet them in that order.
-/

namespace ReactiveMarkup

open List

namespace Markup

/-! ## Elements of an unfinished tree -/

theorem elementsOf_append : elementsOf (ns ++ ms) = elementsOf ns ++ elementsOf ms := by
  induction ns with
  | nil => rfl
  | cons n ns ih => simp [ih]

/-- The elements of an open construct that come before its last section. -/
def Frame.elements : Frame → List Element
  | .element e _ => [e]
  | .otherwise _ _ body => elementsOf body
  | .onValue _ _ main _ => elementsOf main
  | .onError _ _ main _ thenBody _ => elementsOf main ++ elementsOf thenBody
  | .each .. | .cond .. | .await .. | .slot .. | .fragment .. => []

/-- The elements read before the last section of the innermost construct. -/
def openElements : List (Frame × List Node) → List Element
  | [] => []
  | (f, outer) :: below => openElements below ++ elementsOf outer.reverse ++ f.elements

def Assembly.elements (a : Assembly) : List Element := openElements a.stack ++ elementsOf a.body

section Steps

variable {a a' : Assembly}

theorem Assembly.elements_add : (a.add n).elements = a.elements ++ n.elements := by
  simp [Assembly.elements, Assembly.add, Assembly.body, elementsOf_append]

theorem Assembly.elements_enter : (a.enter f).elements = a.elements ++ f.elements := by
  simp [Assembly.elements, Assembly.enter, Assembly.body, openElements]

theorem end_elements (h : a.end ending stop = .ok a') :
    a'.elements = a.elements ∧ a'.nextId = a.nextId := by
  unfold Assembly.end at h
  cases hstack : a.stack with
  | nil =>
    rw [hstack] at h
    cases ending <;> cases h
  | cons top below =>
    obtain ⟨frame, outer⟩ := top
    rw [hstack] at h
    have hbefore : a.elements =
        openElements below ++ elementsOf outer.reverse ++ frame.elements ++ elementsOf a.body := by
      rw [Assembly.elements, hstack, openElements]
    have hleave : ∀ n : Node, n.elements = frame.elements ++ elementsOf a.body →
        (a.leave n outer below).elements = a.elements ∧
          (a.leave n outer below).nextId = a.nextId := by
      intro n hn
      rw [hbefore]
      simp [Assembly.elements, Assembly.leave, Assembly.body, elementsOf_append, hn]
    have hturn : ∀ f : Frame, f.elements = frame.elements ++ elementsOf a.body →
        (a.turn f outer below).elements = a.elements ∧
          (a.turn f outer below).nextId = a.nextId := by
      intro f hf
      rw [hbefore]
      simp [Assembly.elements, Assembly.turn, Assembly.body, openElements, hf]
    -- one case for each construct and ending that belong together, and a last one for the others
    dsimp only at h
    split at h
    · split at h
      · cases h
        exact hleave _ rfl
      · cases h
    all_goals cases h
    · exact hleave _ rfl
    · exact hleave _ (by simp [Frame.elements])
    · exact hturn _ rfl
    · exact hleave _ (by simp [Frame.elements])
    · exact hleave _ (by simp [Frame.elements])
    · exact hturn _ rfl
    · exact hturn _ (by simp [Frame.elements])
    · exact hleave _ (by simp [Frame.elements])
    · exact hturn _ rfl
    · exact hleave _ (by simp [Frame.elements])
    · exact hleave _ rfl
    · exact hleave _ rfl

theorem feed_elements (h : a.feed l = .ok a') : (a'.elements = a.elements ∧ a'.nextId = a.nextId) ∨
      ∃ e, e.id = a.nextId ∧ a'.elements = a.elements ++ [e] ∧ a'.nextId = a.nextId + 1 := by
  obtain ⟨token, start, stop⟩ := l
  unfold Assembly.feed at h
  have hleaf : ∀ n : Node, n.elements = [] →
      (a.add n).elements = a.elements ∧ (a.add n).nextId = a.nextId := by
    intro n hn
    rw [Assembly.elements_add, hn, append_nil]
    exact ⟨rfl, rfl⟩
  have henter : ∀ f : Frame, f.elements = [] →
      (a.enter f).elements = a.elements ∧ (a.enter f).nextId = a.nextId := by
    intro f hf
    rw [Assembly.elements_enter, hf, append_nil]
    exact ⟨rfl, rfl⟩
  cases token with
  | text value | comment content | raw kind tag opening content =>
    cases h
    exact .inl (hleaf _ rfl)
  | openTag tag written =>
    refine .inr ⟨Element.ofTag a.nextId tag written, rfl, ?_⟩
    dsimp only at h
    split at h
    · cases h
      exact ⟨Assembly.elements_add, rfl⟩
    · cases h
      exact ⟨Assembly.elements_enter, rfl⟩
  | closeTag name => exact .inl (end_elements h)
  | control role header =>
    cases role with
    | sysTag value =>
      cases h
      exact .inl (hleaf _ rfl)
    | each value | cond value | await value | slot value | fragment value =>
      cases h
      exact .inl (henter _ rfl)
    | eachEnd | otherwise | condEnd | onValue _ | onError _ | awaitEnd | slotEnd | fragmentEnd =>
      exact .inl (end_elements h)

def Assembly.Numbered (a : Assembly) : Prop := a.elements.map (·.id) = List.range a.nextId

theorem Assembly.Numbered.feed (ha : a.Numbered) (h : a.feed l = .ok a') : a'.Numbered := by
  unfold Assembly.Numbered at *
  rcases feed_elements h with ⟨he, hn⟩ | ⟨e, hid, he, hn⟩
  · rw [he, hn, ha]
  · rw [he, hn, map_append, ha, range_succ, map_singleton, hid]

theorem Assembly.Numbered.feedAll (ha : a.Numbered) (h : a.feedAll ls = .ok a') : a'.Numbered := by
  unfold Assembly.feedAll at h
  induction ls generalizing a with
  | nil =>
    cases h
    exact ha
  | cons l rest ih =>
    rw [foldlM_cons] at h
    cases hf : a.feed l with
    | error f =>
      rw [hf] at h
      cases h
    | ok b =>
      rw [hf] at h
      exact ih (ha.feed hf) h

end Steps

theorem ids_of_parse (h : parse source = .ok root) :
    root.elements.map (·.id) = List.range root.elements.length := by
  obtain ⟨a, -, hfeed, hfinish⟩ := parse_eq_ok h
  obtain ⟨hstack, rfl⟩ := finish_eq_ok hfinish
  have hstart : ({} : Assembly).Numbered := rfl
  have hnumbered := hstart.feedAll hfeed
  rw [Assembly.Numbered, Assembly.elements, hstack, openElements, nil_append] at hnumbered
  have hlength := congrArg List.length hnumbered
  rw [length_map, length_range] at hlength
  exact hlength.symm ▸ hnumbered

end Markup

namespace Style

open Markup

namespace Outline

variable {o : Outline} {up : Option Nat} {c : Nat}

/-! ## Positions -/

theorem Linked.mem_children (h : o.Linked) (up : Option Nat) (c : Nat) :
    c ∈ o.children up ↔ ∃ e, o.elements[c]? = some e ∧ e.parent = up := by
  rw [h.children]
  simp only [positions, mem_map, mem_filter, Prod.exists, mem_zipIdx_iff_getElem?, beq_iff_eq]
  constructor
  · rintro ⟨e, _, ⟨he, hup⟩, rfl⟩
    exact ⟨e, he, hup⟩
  · rintro ⟨e, he, hup⟩
    exact ⟨e, c, ⟨he, hup⟩, rfl⟩

theorem Linked.pairwise_children (h : o.Linked) (up : Option Nat) :
    (o.children up).Pairwise (· < ·) := by
  rw [h.children]
  have hindices : (o.elements.zipIdx.map (·.2)).Pairwise (· < ·) := by
    rw [zipIdx_map_snd, ← range_eq_range']
    exact pairwise_lt_range
  exact hindices.sublist (filter_sublist.map _)

theorem Linked.lt (h : o.Linked) (hc : c ∈ o.children up) : c < o.elements.length := by
  obtain ⟨e, he, -⟩ := (h.mem_children up c).mp hc
  exact (List.getElem?_eq_some_iff.mp he).1

/-! ## Well-ordered outlines -/

/-- An outline is a forest whose positions go down from the roots. Each element names its parent,
all its ancestors and its earlier siblings, and the children of an element are those that name it,
in order. -/
structure Ordered (o : Outline) : Prop where
  linked : o.Linked
  listed : ∀ up c, c ∈ o.children up ↔ ∃ e, o.elements[c]? = some e ∧ e.parent = up
  increasing : ∀ up, (o.children up).Pairwise (· < ·)
  parent : ∀ (c : Nat) (e : StaticElement) (p : Nat), o.elements[c]? = some e →
    e.parent = some p → p < c
  ancestors : ∀ (c : Nat) (e : StaticElement) (p : Nat), o.elements[c]? = some e →
    e.parent = some p → ∃ up, o.elements[p]? = some up ∧ e.ancestors = p :: up.ancestors
  earlier : ∀ (c : Nat) (e : StaticElement), o.elements[c]? = some e →
    e.earlier = ((o.children e.parent).filter (· < c)).reverse

theorem getElem?_of_prefix {c : Nat} (h : es <+: es') (he : es[c]? = some e) :
    es'[c]? = some e := by
  obtain ⟨added, rfl⟩ := h
  rw [List.getElem?_append_left (List.getElem?_eq_some_iff.mp he).1, he]

/-- Positions that are the ancestors of a new element: a position of the outline, and the ancestors
that it has there. -/
def Ancestry (o : Outline) (ks : List Nat) : Prop :=
  ∀ p rest, ks = p :: rest → ∃ up, o.elements[p]? = some up ∧ up.ancestors = rest

theorem Ancestry.mono {ks : List Nat} (h : Ancestry o ks) (ho : o.elements <+: o'.elements) :
    Ancestry o' ks := by
  intro p rest hks
  obtain ⟨up, hup, hrest⟩ := h p rest hks
  exact ⟨up, getElem?_of_prefix ho hup, hrest⟩

theorem Ordered.push {ks : List Nat} (ho : o.Ordered) (hks : Ancestry o ks) :
    (o.push (describe ks (o.children ks.head?).reverse e)).Ordered := by
  generalize hx : describe ks (o.children ks.head?).reverse e = x
  have hancestors : x.ancestors = ks := by rw [← hx, describe_eq]
  have hearlier : x.earlier = (o.children ks.head?).reverse := by rw [← hx, describe_eq]
  have hparent : x.parent = ks.head? := congrArg List.head? hancestors
  have hprefix : o.elements <+: (o.push x).elements := by simp
  -- an element of the longer outline is an old one at its position or the new one at the end
  have hcases : ∀ {c : Nat} {y : StaticElement}, (o.push x).elements[c]? = some y →
      c < o.elements.length ∧ o.elements[c]? = some y ∨ c = o.elements.length ∧ y = x := by
    intro c y hy
    rw [elements_push] at hy
    rcases Nat.lt_trichotomy c o.elements.length with hlt | heq | hgt
    · rw [getElem?_append_left hlt] at hy
      exact .inl ⟨hlt, hy⟩
    · rw [heq, getElem?_concat_length] at hy
      exact .inr ⟨heq, (Option.some.inj hy).symm⟩
    · rw [getElem?_eq_none (by simp; omega)] at hy
      cases hy
  have hbelow : ∀ p, x.parent = some p → p < o.elements.length := by
    intro p hp
    rw [hparent] at hp
    obtain ⟨rest, rfl⟩ := head?_eq_some_iff.mp hp
    obtain ⟨up, hup, -⟩ := hks p rest rfl
    exact (List.getElem?_eq_some_iff.mp hup).1
  have hlinked := ho.linked.push hbelow
  refine ⟨hlinked, hlinked.mem_children, hlinked.pairwise_children, ?_, ?_, ?_⟩
  · intro c y p hy hp
    rcases hcases hy with ⟨-, hold⟩ | ⟨rfl, rfl⟩
    · exact ho.parent c y p hold hp
    · exact hbelow p hp
  · intro c y p hy hp
    rcases hcases hy with ⟨-, hold⟩ | ⟨rfl, rfl⟩
    · obtain ⟨up, hup, hrest⟩ := ho.ancestors c y p hold hp
      exact ⟨up, getElem?_of_prefix hprefix hup, hrest⟩
    · rw [hparent] at hp
      obtain ⟨rest, rfl⟩ := head?_eq_some_iff.mp hp
      obtain ⟨up, hup, hrest⟩ := hks p rest rfl
      exact ⟨up, getElem?_of_prefix hprefix hup, by rw [hancestors, hrest]⟩
  · intro c y hy
    rw [hlinked.children, positions_push, ← ho.linked.children, filter_append]
    rcases hcases hy with ⟨hlt, hold⟩ | ⟨rfl, rfl⟩
    · -- the new position comes after all old ones
      have hnone :
          (if x.parent == y.parent then [o.elements.length] else []).filter (· < c) = [] := by
        split
        · simp [hlt.le]
        · rfl
      rw [hnone, append_nil]
      exact ho.earlier c y hold
    · rw [if_pos (beq_self_eq_true _), hearlier, hparent]
      have hall : (o.children ks.head?).filter (· < o.elements.length) = o.children ks.head? := by
        refine filter_eq_self.mpr fun k hk => ?_
        simpa using ho.linked.lt hk
      simp [hall]

mutual

theorem Ordered.plant : ∀ (n : Node) {ks : List Nat} {o : Outline}, o.Ordered → Ancestry o ks →
    (plant ks o n).Ordered
  | .element e body _, ks, o, ho, hks => by
    rw [Outline.plant]
    refine Ordered.plantAll body (ho.push hks) ?_
    rintro p rest ⟨⟩
    rw [elements_push]
    exact ⟨_, getElem?_concat_length, by rw [describe_eq]⟩
  | .each _ body _, _, _, ho, hks | .slot _ body _, _, _, ho, hks
  | .fragment _ body _, _, _, ho, hks => Ordered.plantAll body ho hks
  | .cond _ body _ alt _, _, _, ho, hks =>
    Ordered.plantAll alt (Ordered.plantAll body ho hks) (hks.mono (prefix_plantAll body _ _))
  | .await _ main _ thenBody _ catchBody _, ks, o, ho, hks => by
    have hthen := hks.mono (prefix_plantAll main ks o)
    exact Ordered.plantAll catchBody (Ordered.plantAll thenBody (Ordered.plantAll main ho hks) hthen)
      (hthen.mono (prefix_plantAll thenBody _ _))
  | .text .., _, _, ho, _ => ho
  | .comment .., _, _, ho, _ => ho
  | .raw _, _, _, ho, _ => ho
  | .sysTag .., _, _, ho, _ => ho

theorem Ordered.plantAll : ∀ (ns : List Node) {ks : List Nat} {o : Outline}, o.Ordered →
    Ancestry o ks → (plantAll ks o ns).Ordered
  | [], _, _, ho, _ => ho
  | n :: ns, _, _, ho, hks =>
    Ordered.plantAll ns (Ordered.plant n ho hks) (hks.mono (prefix_plant n _ _))

end

theorem ordered_ofRoot (root : Root) : (ofRoot root).Ordered := by
  refine Ordered.plantAll root.body
    ⟨linked_empty, linked_empty.mem_children, linked_empty.pairwise_children, ?_, ?_, ?_⟩ ?_
  · intro c e p he
    cases he
  · intro c e p he
    cases he
  · intro c e he
    cases he
  · rintro p rest ⟨⟩

/-- The numbers of the elements of a tree, as a walk meets them and as its outline lists them, are
0, 1, 2 and so on. In the outline a parent comes before its children, and who is listed as a child
of an element, or as a root, is who names it as parent, or none. -/
theorem parse_numbers_elements (source : String) (root : Root) (h : parse source = .ok root) :
    root.elements.map (·.id) = List.range root.elements.length ∧
      (ofRoot root).elements.map (·.source) = root.elements.map (·.id) ∧
      (root.elements.map (·.id)).Nodup ∧ (ofRoot root).Ordered := by
  have hids := ids_of_parse h
  exact ⟨hids, sources_ofRoot root, hids ▸ List.nodup_range, ordered_ofRoot root⟩

def numberedSource : String :=
  "<ul>\x7b#each xs as x\x7d<li><b>.</b><i/></li>\x7b/each\x7d</ul>\x7b#if y\x7d<p>.</p>\x7b:else\x7d" ++
    "<br>\x7b/if\x7d\x7b#await q\x7d<u>.</u>\x7b:catch e\x7d<s>.</s>\x7b/await\x7d"

theorem parse_numbers_elements_sample : ∃ root, parse numberedSource = .ok root ∧
    root.elements.map (·.id) = List.range 8 ∧
      (ofRoot root).elements.map (·.parent) =
        [none, some 0, some 1, some 1, none, none, none, none] ∧ (ofRoot root).Ordered := by
  have hshape : (parse numberedSource).toOption.map (fun root =>
      (root.elements.length, (ofRoot root).elements.map (·.parent))) =
        some (8, [none, some 0, some 1, some 1, none, none, none, none]) := by
    decide +kernel
  cases h : parse numberedSource with
  | error halt =>
    rw [h] at hshape
    cases hshape
  | ok root =>
    rw [h] at hshape
    obtain ⟨hlength, hparents⟩ := Prod.mk.inj (Option.some.inj hshape)
    obtain ⟨hids, -, -, hordered⟩ := parse_numbers_elements numberedSource root h
    exact ⟨root, rfl, hlength ▸ hids, hparents, hordered⟩

end Outline

end Style

end ReactiveMarkup
