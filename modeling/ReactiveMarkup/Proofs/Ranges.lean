import ReactiveMarkup.Proofs.Links

/-! # Ranges of siblings

A range is a run of siblings that is known by its first and its last node. Ranges are found, moved
and removed as wholes, and a fragment gives its children as one range.
-/

namespace ReactiveMarkup.Reactive

open List

def ends (ns : List NodeId) : Option (NodeId × NodeId) :=
  ns.head?.bind fun a => ns.getLast?.map fun b => (a, b)

theorem ends_eq_none_iff : ends ns = none ↔ ns = [] := by
  cases ns <;> simp [ends, getLast?_cons]

theorem ends_eq_some (h : ends ns = some (a, b)) : ns.head? = some a ∧ ns.getLast? = some b := by
  cases ns with
  | nil => cases h
  | cons n ns => simpa [ends, getLast?_cons] using h

theorem mem_of_ends (h : ends ns = some (a, b)) : a ∈ ns := mem_of_head? (ends_eq_some h).1

theorem eq_cons_of_ends (h : ends ns = some (a, b)) : ∃ ms, ns = a :: ms :=
  head?_eq_some_iff.mp (ends_eq_some h).1

theorem eq_singleton_of_ends (hd : ns.Nodup) (h : ends ns = some (n, n)) : ns = [n] := by
  have hl := (ends_eq_some h).2
  obtain ⟨ms, rfl⟩ := eq_cons_of_ends h
  cases ms with
  | nil => rfl
  | cons k ks =>
    have hm : n ∈ k :: ks := mem_of_getLast? (by simpa using hl)
    exact absurd hm (nodup_cons.mp hd).1

theorem filter_not_mem_middle {front ns back : List NodeId} (h : (front ++ ns ++ back).Nodup) :
    (front ++ ns ++ back).filter (· ∉ ns) = front ++ back := by
  rw [append_assoc] at h
  have ⟨_, h2, h3⟩ := nodup_append.mp h
  have ⟨_, _, h4⟩ := nodup_append.mp h2
  have hfront : front.filter (· ∉ ns) = front := by
    rw [filter_eq_self]
    intro x hx
    simpa using fun hm => h3 x hx x (by simp [hm]) rfl
  have hback : back.filter (· ∉ ns) = back := by
    rw [filter_eq_self]
    intro x hx
    simpa using fun hm => h4 x hm x hx rfl
  have hns : ns.filter (· ∉ ns) = [] := by simp
  rw [filter_append, filter_append, hfront, hns, hback, append_nil]

namespace Document

variable {ρ : Type} {d : Document ρ}

theorem extent?_eq_ends : d.extent? i = ends (d.children i) := by
  cases hc : d.children i <;> simp [extent?, ends, firstChild?, lastChild?, hc, getLast?_cons]

/-! ## Finding -/

theorem nextSibling?_eq (h : d.Linked) (hc : d.children p = front ++ c :: back) :
    d.nextSibling? c = back.head? := by
  have hmem : c ∈ d.children p := by simp [hc]
  have hf : c ∉ front := by
    intro hm
    have hd := h.nodup p
    rw [hc] at hd
    exact (nodup_append.mp hd).2.2 c hm c mem_cons_self rfl
  have hidx : (front ++ c :: back).idxOf? c = some front.length := by
    rw [idxOf?_eq_some_iff]
    refine ⟨by simp, by simp, ?_⟩
    intro j hj he
    apply hf
    rw [getElem_append_left hj] at he
    exact he ▸ getElem_mem hj
  simp only [nextSibling?, place?, h.parent_of_mem hmem, hc, hidx, Option.bind_eq_bind,
    Option.bind_some, Option.pure_def]
  rw [getElem?_append_right (by omega)]
  simp [head?_eq_getElem?]

theorem through_append (hd : ns.Nodup) (hl : ns.getLast? = some l) :
    through l (ns ++ back) = ns := by
  induction ns with
  | nil => simp at hl
  | cons n ns ih =>
    have ⟨hn, hns⟩ := nodup_cons.mp hd
    rw [cons_append, through]
    cases ns with
    | nil =>
      obtain rfl : n = l := by simpa using hl
      simp
    | cons m ms =>
      have hlast : (m :: ms).getLast? = some l := by simpa using hl
      have hne : n ≠ l := fun he => hn (he ▸ mem_of_getLast? hlast)
      rw [if_neg hne, ih hns hlast]

theorem range_from (h : d.Linked) (hc : d.children p = front ++ a :: back) :
    d.range a b = through b (a :: back) := by
  have hd := h.nodup p
  rw [hc] at hd
  have hdrop : (d.children p).dropWhile (· != a) = a :: back := by
    rw [hc, dropWhile_append_of_pos]
    · simp
    · intro x hx
      have hne := (nodup_append.mp hd).2.2 x hx a mem_cons_self
      simpa using hne
  have hmem : a ∈ d.children p := by simp [hc]
  rw [range, h.parent_of_mem hmem]
  simp only [hdrop]

theorem range_eq (h : d.Linked) (hc : d.children p = front ++ ns ++ back)
    (he : ends ns = some (a, b)) : d.range a b = ns := by
  have hl := (ends_eq_some he).2
  obtain ⟨ms, rfl⟩ := eq_cons_of_ends he
  have hd := h.nodup p
  rw [hc, append_assoc] at hd
  have hrest := (nodup_append.mp hd).2.1
  have hc : d.children p = front ++ a :: (ms ++ back) := by rw [hc]; simp
  rw [range_from h hc]
  exact through_append (nodup_append.mp hrest).1 hl

theorem range_of_loose (h : d.parent? a = none) : d.range a b = [a] := by
  simp [range, h]

/-! ## Removing -/

theorem linked_detachAll (h : d.Linked) {ns : List NodeId} : (ns.foldl detach d).Linked := by
  induction ns generalizing d with
  | nil => exact h
  | cons n ns ih => exact ih (linked_detach h)

@[simp] theorem size_detachAll {ns : List NodeId} : (ns.foldl detach d).nodes.size = d.nodes.size :=
  (Rearranged.detachAll ns).size

@[simp] theorem kind_detachAll {ns : List NodeId} {j : NodeId} :
    (ns.foldl detach d).kind j = d.kind j :=
  (Rearranged.detachAll ns).kind

theorem children_detachAll (h : d.Linked) {ns : List NodeId} {q : NodeId} :
    (ns.foldl detach d).children q = (d.children q).filter (· ∉ ns) := by
  induction ns generalizing d with
  | nil => simp
  | cons n ns ih =>
    rw [foldl_cons, ih (linked_detach h), children_detach h.parent_of_mem,
      (h.nodup q).erase_eq_filter, filter_filter]
    apply filter_congr
    intro x _
    simp only [mem_cons, not_or, Bool.decide_and, decide_not]
    rw [Bool.and_comm]
    rfl

theorem removeRange_eq (h : d.Linked) (hc : d.children p = front ++ ns ++ back)
    (he : ends ns = some (a, b)) : d.removeRange a b = ns.foldl detach d := by
  rw [removeRange, range_eq h hc he]

/-! ## Moving -/

theorem insertBefore_plain (hk : d.kind n ≠ .fragment) :
    d.insertBefore parent n ref = d.place parent n ref := by
  by_cases hr : ref = some n
  · rw [insertBefore, place, if_pos hr, if_pos hr]
  · rw [insertBefore, if_neg hr, if_neg hk]

def giveAll (d : Document ρ) (parent : NodeId) (reference : Option NodeId) (ns : List NodeId) :
    Document ρ :=
  ns.foldl (fun d c => (d.setParent c none).place parent c reference) d

theorem insertBefore_form : d.insertBefore parent n ref = d ∨
      d.insertBefore parent n ref =
        (d.setChildren n []).giveAll parent ref (d.children n) ∨
      d.insertBefore parent n ref = d.place parent n ref := by
  unfold Document.insertBefore
  split
  · exact .inl rfl
  split
  · exact .inr (.inl rfl)
  · exact .inr (.inr rfl)

section

variable (parent n : NodeId) (ref : Option NodeId)

theorem Rearranged.insertBefore : Rearranged d (d.insertBefore parent n ref) := by
  rcases insertBefore_form with h | h | h
  · rw [h]
    exact refl
  · rw [h]
    have hgive : ∀ (ns : List NodeId) (e : Document ρ),
        Rearranged e (e.giveAll parent ref ns) := by
      intro ns
      induction ns with
      | nil => exact fun e => refl
      | cons c ns ih => exact fun e => (setParent.trans place).trans (ih _)
    exact setChildren.trans (hgive _ _)
  · rw [h]
    exact place

@[simp] theorem size_insertBefore : (d.insertBefore parent n ref).nodes.size = d.nodes.size :=
  (Rearranged.insertBefore parent n ref).size

@[simp] theorem kind_insertBefore (j : NodeId) : (d.insertBefore parent n ref).kind j = d.kind j :=
  (Rearranged.insertBefore parent n ref).kind

end

/-- What is true of a document after some nodes have gone under a parent. -/
structure Gathered (parent : NodeId) (ns : List NodeId) (d e : Document ρ) : Prop where
  linked : e.Linked
  size : e.nodes.size = d.nodes.size
  kind : ∀ j, e.kind j = d.kind j
  parent? : ∀ j, e.parent? j = if j ∈ ns then some parent else d.parent? j
  others : ∀ q, q ≠ parent → e.children q = (d.children q).filter (· ∉ ns)

theorem insertAll_between (h : d.Linked) (hp : parent < d.nodes.size)
    (hc : d.children parent = front ++ back) (hd : ns.Nodup)
    (hin : ∀ n ∈ ns, n < d.nodes.size ∧ d.kind n ≠ .fragment ∧ n ∉ front)
    (hr : ∀ n ∈ ns, back.head? ≠ some n) :
    let e := ns.foldl (fun d n => d.insertBefore parent n back.head?) d
    Gathered parent ns d e ∧ e.children parent = front ++ ns ++ back.filter (· ∉ ns) := by
  induction ns generalizing d front back with
  | nil => exact ⟨⟨h, rfl, fun _ => rfl, by simp, by simp⟩, by simpa using hc⟩
  | cons n ns ih =>
    obtain ⟨hn, hk, hf⟩ := hin n mem_cons_self
    have ⟨hnn, hdn⟩ := nodup_cons.mp hd
    have hrn := hr n mem_cons_self
    have hbd : back.Nodup := by
      have := h.nodup parent
      rw [hc] at this
      exact (nodup_append.mp this).2.1
    have hhead := (head?_erase hrn).symm
    -- One insertion lengthens the front by `n`; the rest goes before the same ref.
    have hstep : (d.place parent n back.head?).children parent =
        (front ++ [n]) ++ back.erase n := by
      rw [children_place_between h hc hp hf hrn]
      simp
    have hrest := ih (linked_place h hp hn hk) (by simpa using hp) hstep
      hdn (by
        intro m hm
        obtain ⟨h1, h2, h3⟩ := hin m (.tail n hm)
        have hmn : m ≠ n := fun he => hnn (he ▸ hm)
        exact ⟨by simpa using h1, by simpa using h2, by simp [h3, hmn]⟩)
      (by
        intro m hm
        rw [← hhead]
        exact hr m (.tail n hm))
    rw [← hhead] at hrest
    obtain ⟨hg, hch⟩ := hrest
    simp only [foldl_cons, insertBefore_plain hk]
    have hfilter : ∀ {cs : List NodeId}, cs.Nodup →
        (cs.erase n).filter (· ∉ ns) = cs.filter (· ∉ n :: ns) := by
      intro cs hcs
      rw [hcs.erase_eq_filter, filter_filter]
      apply filter_congr
      intro x _
      by_cases hx : x = n <;> simp [hx]
    refine ⟨⟨hg.linked, ?_, ?_, ?_, ?_⟩, ?_⟩
    · rw [hg.size, size_place]
    · intro j
      rw [hg.kind, kind_place]
    · intro j
      rw [hg.parent?, parent?_place h.parent_of_mem hn hrn]
      by_cases hjn : j = n <;> by_cases hm : j ∈ ns <;> simp [hjn, hm]
    · intro q hq
      rw [hg.others q hq, children_place h.parent_of_mem hp hrn, if_neg hq, hfilter (h.nodup q)]
    · rw [hch, hfilter hbd]
      simp

/-! ## Fragments -/

/-- The list after its new members have been put before the reference, one after the other. A member
that is the reference itself is left out. -/
def putAll (reference : Option NodeId) (ns cs : List NodeId) : List NodeId :=
  ns.foldl (fun cs n => if reference = some n then cs else putAt n reference cs) cs

section PutAll

variable {ref : Option NodeId} {ns cs front back : List NodeId}

theorem mem_putAll : x ∈ putAll ref ns cs ↔ (x ∈ ns ∧ ref ≠ some x) ∨ x ∈ cs := by
  induction ns generalizing cs with
  | nil => simp [putAll]
  | cons n ns ih =>
    rw [putAll, foldl_cons, ← putAll, ih]
    split
    · next hr => grind
    · next hr => grind [mem_putAt]

theorem nodup_putAll (hcs : cs.Nodup) (hns : ns.Nodup) (hd : ∀ n ∈ ns, n ∉ cs) :
    (putAll ref ns cs).Nodup := by
  induction ns generalizing cs with
  | nil => exact hcs
  | cons n ns ih =>
    have ⟨hn, hns⟩ := nodup_cons.mp hns
    have ⟨hnc, hd⟩ := forall_mem_cons.mp hd
    rw [putAll, foldl_cons, ← putAll]
    split
    · exact ih hcs hns hd
    · refine ih (nodup_putAt hcs hnc) hns fun m hm => ?_
      rw [mem_putAt]
      rintro (rfl | hmc)
      · exact hn hm
      · exact hd m hm hmc

theorem putAll_head (h : (front ++ ns ++ back).Nodup) :
    putAll back.head? ns (front ++ back) = front ++ ns ++ back := by
  induction ns generalizing front with
  | nil => simp [putAll]
  | cons n ns ih =>
    have hne : back.head? ≠ some n := fun he => by
      have := mem_of_head? he
      grind
    have hput : putAt n back.head? (front ++ back) = front ++ n :: back := putAt_head (by grind)
    rw [putAll, foldl_cons, if_neg hne, hput, ← putAll]
    simpa using @ih (front ++ [n]) (by simpa using h)

end PutAll

section Fragment

variable {parent f n : NodeId} {ref : Option NodeId} {ns front back : List NodeId}

theorem Upward.place (h : d.Upward) (hp : parent < d.nodes.size) (hn : n < d.nodes.size)
    (hr : ref ≠ some n) (hl : d.parent? n = none) : (d.place parent n ref).Upward := by
  intro p c hc
  rw [children_place h hp hr, erase_of_not_mem (h.not_mem_of_loose hl _),
    erase_of_not_mem (h.not_mem_of_loose hl _)] at hc
  rw [parent?_place h hn hr]
  split
  · next hcn =>
    grind
  · next hcn =>
    split at hc
    · next hpp => exact hpp ▸ h ((mem_putAt.mp hc).resolve_left hcn)
    · exact h hc

/-- The children of a fragment go to their place one after the other. While this goes on, those that
wait still name the fragment as their parent. -/
theorem upward_giveAll (h : d.Upward) (hp : parent < d.nodes.size) (hns : ns.Nodup)
    (hn : ∀ n ∈ ns, n < d.nodes.size ∧ ∀ p, n ∉ d.children p) (ref : Option NodeId) :
    let e := d.giveAll parent ref ns
    e.Upward ∧
      (∀ j, e.children j = if j = parent then putAll ref ns (d.children parent) else
        d.children j) ∧
      ∀ j, e.parent? j =
        if j ∈ ns then (if ref = some j then none else some parent) else d.parent? j := by
  induction ns generalizing d with
  | nil => exact ⟨h, fun j => by split <;> simp_all [putAll, giveAll], by simp [giveAll]⟩
  | cons n ns ih =>
    have ⟨hnn, hns⟩ := nodup_cons.mp hns
    obtain ⟨⟨hsz, hout⟩, hwait⟩ := forall_mem_cons.mp hn
    have hup : (d.setParent n none).Upward := by
      intro p c hc
      rw [children_setParent] at hc
      have hne : c ≠ n := fun he => hout p (he ▸ hc)
      rw [parent?_setParent_none, if_neg hne]
      exact h hc
    have hloose : (d.setParent n none).parent? n = none := by simp [parent?_setParent_none]
    -- what one step does, whether or not the node is the ref
    obtain ⟨hup', hch, hpar⟩ : ((d.setParent n none).place parent n ref).Upward ∧
        (∀ j, ((d.setParent n none).place parent n ref).children j =
          if j = parent then (if ref = some n then d.children parent else
            putAt n ref (d.children parent)) else d.children j) ∧
        ∀ j, ((d.setParent n none).place parent n ref).parent? j =
          if j = n then (if ref = some n then none else some parent) else d.parent? j := by
      by_cases hr : ref = some n
      · rw [Document.place, if_pos hr]
        refine ⟨hup, fun j => ?_, fun j => ?_⟩
        · split <;> simp_all
        · rw [parent?_setParent_none, if_pos hr]
      · refine ⟨hup.place (by simpa using hp) (by simpa using hsz) hr hloose, fun j => ?_, fun j => ?_⟩
        · rw [children_place hup (by simpa using hp) hr]
          simp only [children_setParent, erase_of_not_mem (hout _), if_neg hr]
        · rw [parent?_place hup (by simpa using hsz) hr, parent?_setParent_none]
          split <;> simp_all
    obtain ⟨h1, h2, h3⟩ := ih hup'
      (by simpa using hp) hns fun m hm => by
        refine ⟨by simpa using (hwait m hm).1, fun p => ?_⟩
        rw [hch]
        have := (hwait m hm).2
        split
        · split
          · exact this parent
          · rw [mem_putAt]
            exact not_or.mpr ⟨fun he => hnn (he ▸ hm), this parent⟩
        · exact this p
    refine ⟨h1, fun j => (h2 j).trans ?_, fun j => (h3 j).trans ?_⟩
    · rw [hch, hch, if_pos rfl, putAll, putAll, foldl_cons]
      split <;> rfl
    · rw [hpar]
      grind

section

variable (h : d.Linked) (hp : parent < d.nodes.size) (hf : f < d.nodes.size)
  (hk : d.kind f = .fragment)
include h hp hf hk

/-- A fragment gives its children away and is empty. A child that is the reference itself is left
without a parent. -/
theorem linked_fragment (hr : ref ≠ some f) : let e := d.insertBefore parent f ref
    e.Linked ∧
      (∀ j, e.children j = if j = parent then
        putAll ref (d.children f) ((d.setChildren f []).children parent) else
        (d.setChildren f []).children j) ∧
      ∀ j, e.parent? j = if j ∈ d.children f then (if ref = some j then none else some parent)
        else d.parent? j := by
  have hempty : ∀ j, (d.setChildren f []).children j = if j = f then [] else d.children j :=
    children_setChildren hf
  have hout : ∀ n ∈ d.children f, ∀ p, n ∉ (d.setChildren f []).children p := by
    intro n hn p hm
    rw [hempty] at hm
    split at hm
    · cases hm
    · next hpf => exact hpf (h.same_parent hm hn)
  have hup : (d.setChildren f []).Upward := by
    intro p c hc
    rw [hempty] at hc
    rw [parent?_setChildren]
    split at hc
    · cases hc
    · exact h.parent_of_mem hc
  have hnodup : ∀ p, ((d.setChildren f []).children p).Nodup := by
    intro p
    rw [hempty]
    split
    · exact nodup_nil
    · exact h.nodup p
  have hgive : d.insertBefore parent f ref =
      (d.setChildren f []).giveAll parent ref (d.children f) := by
    rw [insertBefore, if_neg hr, if_pos hk]
    rfl
  obtain ⟨h1, h2, h3⟩ := upward_giveAll hup (by simpa using hp) (h.nodup f)
    (fun n hn => ⟨by simpa using h.lt_size hn, hout n hn⟩) ref
  simp only [← hgive, parent?_setChildren] at h1 h2 h3
  have hmem : ∀ p c, c ∈ (d.insertBefore parent f ref).children p ↔
      (p = parent ∧ c ∈ d.children f ∧ ref ≠ some c) ∨ (p ≠ f ∧ c ∈ d.children p) := by
    intro p c
    rw [h2]
    split
    · next hpp =>
      rw [mem_putAll, hempty]
      grind
    · rw [hempty]
      grind
  refine ⟨⟨h1, ?_, ?_, ?_⟩, h2, h3⟩
  · intro p c hc
    have := @Linked.mem_of_parent _ _ h p c
    grind
  · intro p
    rw [h2]
    split
    · exact nodup_putAll (hnodup _) (h.nodup f) fun n hn => hout n hn parent
    · exact hnodup p
  · intro p c hc
    rw [kind_insertBefore]
    rcases (hmem p c).mp hc with ⟨-, hc, -⟩ | ⟨-, hc⟩ <;> exact h.plain hc

theorem insertFragment_between (hne : parent ≠ f) (hc : d.children parent = front ++ back) :
    let e := d.insertBefore parent f back.head?
    Gathered parent (d.children f) d e ∧ e.children parent = front ++ d.children f ++ back := by
  have hin : ∀ {r}, back.head? = some r → r ∈ d.children parent := fun he => by
    rw [hc]
    exact mem_append_right _ (mem_of_head? he)
  have hdisj : ∀ {q x}, q ≠ f → x ∈ d.children q → x ∉ d.children f :=
    fun hq hx hy => hq (h.same_parent hx hy)
  obtain ⟨hl, h2, h3⟩ := linked_fragment h hp hf hk
    (show back.head? ≠ some f from fun he => h.plain (hin he) hk)
  simp only [children_setChildren hf] at h2
  refine ⟨⟨hl, size_insertBefore .., kind_insertBefore _ _ _, fun j => (h3 j).trans ?_,
    fun q hq => (h2 q).trans ?_⟩, (h2 parent).trans ?_⟩
  · split
    · next hj => rw [if_neg fun he => hdisj hne (hin he) hj]
    · rfl
  · rw [if_neg hq]
    split
    · next hqf => simp [hqf]
    · next hqf => exact (filter_eq_self.mpr fun x hx => by simpa using hdisj hqf hx).symm
  · rw [if_pos rfl, if_neg hne, hc]
    have hpar := h.nodup parent
    have := h.nodup f
    exact putAll_head (by grind)

end

end Fragment

end Document

end ReactiveMarkup.Reactive
