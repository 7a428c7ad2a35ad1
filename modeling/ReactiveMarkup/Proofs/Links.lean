import Mathlib.Data.List.Nodup
import Mathlib.Order.Nat
import ReactiveMarkup.Reactive.Document

/-! # Linked documents

In a linked document the lists of children and the parents say the same, and no fragment is a child.
Every change of place keeps a document linked; what it does to the lists of children is an equation
on lists.
-/

namespace ReactiveMarkup.Reactive

open List

namespace Document

variable {ρ : Type} {d e : Document ρ}

/-! ## Updates -/

section

variable (i j : NodeId) (f : Node ρ → Node ρ) (cs : List NodeId) (p : Option NodeId)

@[simp] theorem size_update : (d.update i f).nodes.size = d.nodes.size := by
  simp [update]

theorem getElem?_update :
    (d.update i f).nodes[j]? = if i = j then d.nodes[j]?.map f else d.nodes[j]? := by
  simp [update, Array.getElem?_modify]

theorem children_update : (d.update i f).children j =
      if i = j then (d.nodes[j]?.map fun n => (f n).children).getD [] else d.children j := by
  by_cases h : i = j
  · simp [children, getElem?_update, h, Function.comp_def]
  · simp [children, getElem?_update, h]

theorem children_update_of_eq
    (hf : ∀ n, (f n).children = n.children) : (d.update i f).children j = d.children j := by
  rw [children_update]
  split
  · simp [children, hf]
  · rfl

theorem parent?_update_of_eq
    (hf : ∀ n, (f n).parent = n.parent) : (d.update i f).parent? j = d.parent? j := by
  by_cases h : i = j
  · cases hn : d.nodes[j]? <;> simp [parent?, getElem?_update, h, hn, hf]
  · simp [parent?, getElem?_update, h]

theorem kind_update_of_eq
    (hf : ∀ n, (f n).content.kind = n.content.kind) : (d.update i f).kind j = d.kind j := by
  by_cases h : i = j
  · cases hn : d.nodes[j]? <;> simp [kind, content, getElem?_update, h, hn, hf]
  · simp [kind, content, getElem?_update, h]

theorem content_update_of_eq
    (hf : ∀ n, (f n).content = n.content) : (d.update i f).content j = d.content j := by
  by_cases h : i = j
  · cases hn : d.nodes[j]? <;> simp [content, getElem?_update, h, hn, hf]
  · simp [content, getElem?_update, h]

def setChildren (d : Document ρ) (i : NodeId) (cs : List NodeId) : Document ρ :=
  d.update i fun n => { n with children := cs }

def setParent (d : Document ρ) (i : NodeId) (p : Option NodeId) : Document ρ :=
  d.update i fun n => { n with parent := p }

@[simp] theorem size_setChildren : (d.setChildren i cs).nodes.size = d.nodes.size := by
  simp [setChildren]

@[simp] theorem size_setParent : (d.setParent i p).nodes.size = d.nodes.size := by
  simp [setParent]

@[simp] theorem parent?_setChildren : (d.setChildren i cs).parent? j = d.parent? j :=
  parent?_update_of_eq i j _ fun _ => rfl

@[simp] theorem kind_setChildren : (d.setChildren i cs).kind j = d.kind j :=
  kind_update_of_eq i j _ fun _ => rfl

@[simp] theorem children_setParent : (d.setParent i p).children j = d.children j :=
  children_update_of_eq i j _ fun _ => rfl

@[simp] theorem kind_setParent : (d.setParent i p).kind j = d.kind j :=
  kind_update_of_eq i j _ fun _ => rfl

end

theorem children_setChildren (hi : i < d.nodes.size) (j : NodeId) :
    (d.setChildren i cs).children j = if j = i then cs else d.children j := by
  rw [setChildren, children_update]
  by_cases h : j = i
  · subst h
    simp [hi]
  · simp [h, Ne.symm h]

theorem parent?_setParent (hi : i < d.nodes.size) :
    (d.setParent i p).parent? j = if j = i then p else d.parent? j := by
  by_cases h : j = i
  · subst h
    rw [setParent, parent?, getElem?_update, Array.getElem?_eq_getElem hi]
    simp
  · simp [setParent, parent?, getElem?_update, h, Ne.symm h]

theorem lt_size_of_parent (h : d.parent? i = some p) : i < d.nodes.size := by
  by_contra hi
  simp [parent?, Nat.le_of_not_lt hi] at h

theorem lt_size_of_child (h : c ∈ d.children p) : p < d.nodes.size := by
  by_contra hp
  simp [children, Nat.le_of_not_lt hp] at h

theorem parent?_setParent_none :
    (d.setParent i none).parent? j = if j = i then none else d.parent? j := by
  by_cases h : j = i
  · subst h
    cases hn : d.nodes[j]? <;> simp [setParent, parent?, getElem?_update, hn]
  · simp [setParent, parent?, getElem?_update, h, Ne.symm h]

theorem update_children_eq (p : NodeId) (g : List NodeId → List NodeId) :
    (d.update p fun n => { n with children := g n.children }) =
      d.setChildren p (g (d.children p)) := by
  unfold setChildren update
  congr 1
  apply Array.ext_getElem?
  intro j
  rw [Array.getElem?_modify, Array.getElem?_modify]
  by_cases hj : p = j
  · subst hj
    cases hn : d.nodes[p]? <;> simp [children, hn]
  · simp [hj]

/-! ## Links -/

abbrev Upward (d : Document ρ) : Prop := ∀ {p c}, c ∈ d.children p → d.parent? c = some p

structure Linked (d : Document ρ) : Prop where
  parent_of_mem : ∀ {p c}, c ∈ d.children p → d.parent? c = some p
  mem_of_parent : ∀ {p c}, d.parent? c = some p → c ∈ d.children p
  nodup : ∀ p, (d.children p).Nodup
  plain : ∀ {p c}, c ∈ d.children p → d.kind c ≠ .fragment

theorem Upward.not_mem_of_loose (h : d.Upward) (hc : d.parent? c = none) (p : NodeId) :
    c ∉ d.children p := by
  intro hm
  rw [h hm] at hc
  cases hc

namespace Linked

theorem lt_size (h : d.Linked) (hc : c ∈ d.children p) : c < d.nodes.size :=
  lt_size_of_parent (h.parent_of_mem hc)

theorem not_mem_of_loose (h : d.Linked) (hc : d.parent? c = none) (p : NodeId) : c ∉ d.children p :=
  Upward.not_mem_of_loose h.parent_of_mem hc p

theorem same_parent (h : d.Linked) (hp : c ∈ d.children p) (hq : c ∈ d.children q) : p = q :=
  Option.some.inj ((h.parent_of_mem hp).symm.trans (h.parent_of_mem hq))

theorem gather (h : d.Linked) (parent : NodeId) (ns : List NodeId)
    (hk : ∀ j, e.kind j = d.kind j) (hns : ∀ n ∈ ns, d.kind n ≠ .fragment)
    (hp : ∀ j, e.parent? j = if j ∈ ns then some parent else d.parent? j)
    (hc : ∀ p c, c ∈ e.children p ↔ (c ∈ ns ∧ p = parent) ∨ (c ∉ ns ∧ c ∈ d.children p))
    (hd : ∀ p, (e.children p).Nodup) : e.Linked where
  parent_of_mem := by
    intro p c hm
    rw [hp]
    rcases (hc p c).mp hm with ⟨hn, rfl⟩ | ⟨hn, hm⟩
    · rw [if_pos hn]
    · rw [if_neg hn]
      exact h.parent_of_mem hm
  mem_of_parent := by
    intro p c hm
    rw [hp] at hm
    apply (hc p c).mpr
    split at hm
    · next hn => exact Or.inl ⟨hn, (Option.some.inj hm).symm⟩
    · next hn => exact Or.inr ⟨hn, h.mem_of_parent hm⟩
  nodup := hd
  plain := by
    intro p c hm
    rw [hk]
    rcases (hc p c).mp hm with ⟨hn, _⟩ | ⟨_, hm⟩
    · exact hns c hn
    · exact h.plain hm

end Linked

theorem Linked.update (h : d.Linked) (hc : ∀ n, (f n).children = n.children)
    (hp : ∀ n, (f n).parent = n.parent)
    (hk : ∀ n, (f n).content.kind = .fragment → n.content.kind = .fragment) :
    (d.update i f).Linked where
  parent_of_mem := by
    intro p c hm
    rw [children_update_of_eq i p f hc] at hm
    rw [parent?_update_of_eq i c f hp]
    exact h.parent_of_mem hm
  mem_of_parent := by
    intro p c hm
    rw [parent?_update_of_eq i c f hp] at hm
    rw [children_update_of_eq i p f hc]
    exact h.mem_of_parent hm
  nodup := by
    intro p
    rw [children_update_of_eq i p f hc]
    exact h.nodup p
  plain := by
    intro p c hm hfragment
    rw [children_update_of_eq i p f hc] at hm
    refine h.plain hm ?_
    rw [kind, content, getElem?_update] at hfragment
    split at hfragment
    · cases hn : d.nodes[c]? with
      | none => simp [kind, content, hn]
      | some n =>
        rw [hn] at hfragment
        simpa [kind, content, hn] using hk n hfragment
    · exact hfragment

theorem linked_empty : ({} : Document ρ).Linked where
  parent_of_mem := by intro p c h; simp [children] at h
  mem_of_parent := by intro p c h; simp [parent?] at h
  nodup := by intro p; simp [children]
  plain := by intro p c h; simp [children] at h

/-! ## Taking out -/

theorem detach_eq : d.detach i = (match d.parent? i with
      | some p => d.setChildren p ((d.children p).erase i)
      | none => d).setParent i none := by
  unfold detach
  cases hp : d.parent? i with
  | none => rfl
  | some p =>
    simp only [update_children_eq p (List.erase · i)]
    rfl

/-- Nodes have changed their places and nothing else. -/
structure Rearranged (d e : Document ρ) : Prop where
  size : e.nodes.size = d.nodes.size
  content : ∀ j, e.content j = d.content j
  templates : e.templates = d.templates

namespace Rearranged

theorem refl : Rearranged d d := ⟨rfl, fun _ => rfl, rfl⟩

theorem trans (h : Rearranged d e) (h' : Rearranged e f) : Rearranged d f :=
  ⟨h'.size.trans h.size, fun j => (h'.content j).trans (h.content j),
    h'.templates.trans h.templates⟩

theorem kind (h : Rearranged d e) : e.kind j = d.kind j :=
  congrArg Content.kind (h.content j)

theorem setChildren : Rearranged d (d.setChildren i cs) :=
  ⟨size_setChildren i cs, fun j => content_update_of_eq i j _ (by simp), rfl⟩

theorem setParent : Rearranged d (d.setParent i p) :=
  ⟨size_setParent i p, fun j => content_update_of_eq i j _ (by simp), rfl⟩

theorem detach : Rearranged d (d.detach i) := by
  rw [detach_eq]
  cases d.parent? i with
  | none => exact setParent
  | some p => exact setChildren.trans setParent

theorem detachAll (ns : List NodeId) : Rearranged d (ns.foldl Document.detach d) := by
  induction ns generalizing d with
  | nil => exact refl
  | cons n ns ih => exact detach.trans ih

end Rearranged

@[simp] theorem size_detach : (d.detach i).nodes.size = d.nodes.size :=
  Rearranged.detach.size

@[simp] theorem kind_detach : (d.detach i).kind j = d.kind j :=
  Rearranged.detach.kind

theorem parent?_detach : (d.detach i).parent? j = if j = i then none else d.parent? j := by
  rw [detach_eq, parent?_setParent_none]
  cases d.parent? i <;> simp

theorem children_detach (h : d.Upward) : (d.detach i).children q = (d.children q).erase i := by
  rw [detach_eq, children_setParent]
  cases hp : d.parent? i with
  | none =>
    rw [erase_of_not_mem (h.not_mem_of_loose hp q)]
  | some p =>
    simp only [setChildren, children_update]
    split
    · subst q
      cases hn : d.nodes[p]? <;> simp [children, hn]
    · next hq =>
      rw [erase_of_not_mem]
      intro hi
      exact hq (Option.some.inj (hp.symm.trans (h hi)))

theorem linked_detach (h : d.Linked) : (d.detach i).Linked where
  parent_of_mem := by
    intro p c hc
    rw [children_detach h.parent_of_mem] at hc
    have ⟨hne, hc⟩ := (h.nodup p).mem_erase_iff.mp hc
    rw [parent?_detach, if_neg hne]
    exact h.parent_of_mem hc
  mem_of_parent := by
    intro p c hc
    rw [parent?_detach] at hc
    split at hc
    · cases hc
    · next hne =>
      rw [children_detach h.parent_of_mem]
      exact (mem_erase_of_ne hne).mpr (h.mem_of_parent hc)
  nodup := by
    intro p
    rw [children_detach h.parent_of_mem]
    exact (h.nodup p).erase i
  plain := by
    intro p c hc
    rw [children_detach h.parent_of_mem] at hc
    rw [kind_detach]
    exact h.plain (mem_of_mem_erase hc)

/-! ## Putting in -/

theorem putBefore_of_not_mem (h : r ∉ cs) : putBefore n r cs = cs ++ [n] := by
  induction cs with
  | nil => rfl
  | cons c cs ih =>
    have ⟨hc, hr⟩ := not_or.mp (mem_cons.not.mp h)
    rw [putBefore, if_neg (Ne.symm hc), ih hr]
    rfl

theorem putBefore_append (h : r ∉ front) :
    putBefore n r (front ++ r :: back) = front ++ n :: r :: back := by
  induction front with
  | nil => simp [putBefore]
  | cons c cs ih =>
    have ⟨hc, hr⟩ := not_or.mp (mem_cons.not.mp h)
    rw [cons_append, putBefore, if_neg (Ne.symm hc), ih hr]
    rfl

/-- The list with a member put before the reference, or at the end. -/
def putAt (n : NodeId) (reference : Option NodeId) (cs : List NodeId) : List NodeId :=
  match reference with
  | some r => putBefore n r cs
  | none => cs ++ [n]

theorem mem_putBefore : x ∈ putBefore n r cs ↔ x = n ∨ x ∈ cs := by
  induction cs with
  | nil => simp [putBefore]
  | cons c cs ih =>
    rw [putBefore]
    split
    · simp
    · rw [mem_cons, ih, mem_cons]
      exact or_left_comm

theorem mem_putAt : x ∈ putAt n ref cs ↔ x = n ∨ x ∈ cs := by
  cases ref with
  | none => simp [putAt, or_comm]
  | some r => exact mem_putBefore

theorem nodup_putBefore (h : cs.Nodup) (hn : n ∉ cs) : (putBefore n r cs).Nodup := by
  induction cs with
  | nil => simp [putBefore]
  | cons c cs ih =>
    have ⟨hc, hcs⟩ := nodup_cons.mp h
    have ⟨hne, hns⟩ := not_or.mp (mem_cons.not.mp hn)
    rw [putBefore]
    split
    · exact nodup_cons.mpr ⟨hn, h⟩
    · refine nodup_cons.mpr ⟨?_, ih hcs hns⟩
      rw [mem_putBefore]
      rintro (he | hm)
      · exact hne he.symm
      · exact hc hm

theorem nodup_putAt (h : cs.Nodup) (hn : n ∉ cs) : (putAt n ref cs).Nodup := by
  cases ref with
  | none => exact nodup_append.mpr ⟨h, by simp, by rintro a ha b hb rfl; simp_all⟩
  | some r => exact nodup_putBefore h hn

theorem putAt_head (h : (front ++ back).Nodup) :
    putAt n back.head? (front ++ back) = front ++ n :: back := by
  cases back with
  | nil => simp [putAt]
  | cons r back =>
    have hr : r ∉ front := fun hm =>
      (nodup_append.mp h).2.2 r hm r mem_cons_self rfl
    exact putBefore_append hr

theorem head?_erase {cs : List NodeId} (h : cs.head? ≠ some n) : (cs.erase n).head? = cs.head? := by
  cases cs with
  | nil => rfl
  | cons c cs =>
    have hne : c ≠ n := fun he => h (congrArg some he)
    simp [hne]

theorem place_eq (h : d.Upward) (hr : ref ≠ some n) : d.place parent n ref =
      ((d.detach n).setChildren parent (putAt n ref ((d.children parent).erase n))).setParent
        n (some parent) := by
  unfold place
  rw [if_neg hr]
  simp only [children_detach h]
  cases ref with
  | none => rfl
  | some r =>
    have hne : r ≠ n := fun he => hr (congrArg some he)
    simp only [parent?_detach, if_neg hne]
    split
    · rfl
    · next hp =>
      rw [putAt, putBefore_of_not_mem fun hm => hp (h (mem_of_mem_erase hm))]
      rfl

theorem place_form : d.place parent n ref = d ∨ ∃ siblings, d.place parent n ref =
      ((d.detach n).setChildren parent siblings).setParent n (some parent) := by
  unfold Document.place
  split
  · exact .inl rfl
  · exact .inr ⟨_, rfl⟩

theorem Rearranged.place : Rearranged d (d.place parent n ref) := by
  rcases place_form with h | ⟨siblings, h⟩
  · rw [h]
    exact refl
  · rw [h]
    exact (detach.trans setChildren).trans setParent

section Place

variable {parent n : NodeId} {ref : Option NodeId}

@[simp] theorem size_place : (d.place parent n ref).nodes.size = d.nodes.size :=
  Rearranged.place.size

@[simp] theorem kind_place (j : NodeId) : (d.place parent n ref).kind j = d.kind j :=
  Rearranged.place.kind

theorem children_place (h : d.Upward) (hp : parent < d.nodes.size) (hr : ref ≠ some n) :
    (d.place parent n ref).children q =
      if q = parent then putAt n ref ((d.children parent).erase n)
      else (d.children q).erase n := by
  rw [place_eq h hr, children_setParent, children_setChildren (by simpa using hp),
    children_detach h]

theorem parent?_place (h : d.Upward) (hn : n < d.nodes.size) (hr : ref ≠ some n) :
    (d.place parent n ref).parent? j = if j = n then some parent else d.parent? j := by
  rw [place_eq h hr, parent?_setParent (by simpa using hn)]
  split
  · rfl
  · next hj => rw [parent?_setChildren, parent?_detach, if_neg hj]

theorem linked_place (h : d.Linked) (hp : parent < d.nodes.size) (hn : n < d.nodes.size)
    (hk : d.kind n ≠ .fragment) : (d.place parent n ref).Linked := by
  by_cases hr : ref = some n
  · unfold place
    rw [if_pos hr]
    exact h
  refine h.gather parent [n] kind_place (by simpa using hk) ?_ ?_ ?_
  · intro j
    rw [parent?_place h.parent_of_mem hn hr]
    simp
  · intro p c
    rw [children_place h.parent_of_mem hp hr]
    by_cases hpp : p = parent
    · subst hpp
      simp only [if_true, mem_putAt, (h.nodup p).mem_erase_iff, mem_singleton]
      tauto
    · simp only [if_neg hpp, (h.nodup p).mem_erase_iff, mem_singleton]
      tauto
  · intro p
    rw [children_place h.parent_of_mem hp hr]
    split
    · exact nodup_putAt ((h.nodup parent).erase n) (h.nodup parent).not_mem_erase
    · exact (h.nodup p).erase n

theorem children_place_between (h : d.Linked) (hc : d.children parent = front ++ back)
    (hp : parent < d.nodes.size) (hf : n ∉ front) (hr : back.head? ≠ some n) :
    (d.place parent n back.head?).children parent = front ++ n :: back.erase n := by
  have hnd := h.nodup parent
  rw [children_place h.parent_of_mem hp hr, if_pos rfl, hc, erase_append_right _ hf,
    ← head?_erase hr]
  apply putAt_head
  have := hnd.erase n
  rwa [hc, erase_append_right _ hf] at this

end Place

end Document

end ReactiveMarkup.Reactive
