import ReactiveMarkup.Proofs.Ranges

/-! # Places

Ranges of siblings are brought into a new order one after the other. Those that wait for their place
stand in their old order after those that have been placed. A single node may have made room for
another one and then stands nowhere.
-/

namespace ReactiveMarkup.Reactive

open List Document

variable {ε ρ : Type} {seg : ε → List NodeId} {p : NodeId}
  {front back placed outs : List NodeId} {waiting before after : List ε} {entry : ε}
  {d e : Document ρ}

/-- The nodes of waiting entries that still stand somewhere. -/
def standing (seg : ε → List NodeId) (waiting : List ε) (outs : List NodeId) : List NodeId :=
  (waiting.flatMap seg).filter (· ∉ outs)

structure Placed (seg : ε → List NodeId) (parent : NodeId) (front placed back : List NodeId)
    (waiting : List ε) (outs : List NodeId) (d : Document ρ) : Prop where
  linked : d.Linked
  known : parent < d.nodes.size
  children : d.children parent = front ++ placed ++ (standing seg waiting outs ++ back)
  out : ∀ t ∈ outs, d.parent? t = none ∧ t < d.nodes.size ∧ d.kind t ≠ .fragment ∧
    ∃ x ∈ waiting, seg x = [t]

theorem same_range (hd : (waiting.flatMap seg).Nodup) (hx : x ∈ waiting) (hy : y ∈ waiting)
    (ht : t ∈ seg x) (ht' : t ∈ seg y) : seg x = seg y := by
  induction waiting with
  | nil => simp at hx
  | cons z rest ih =>
    rw [flatMap_cons, nodup_append] at hd
    have apart : ∀ y ∈ rest, ∀ u ∈ seg z, u ∉ seg y := fun y hy u hu hu' =>
      hd.2.2 u hu u (mem_flatMap.mpr ⟨y, hy, hu'⟩) rfl
    rcases mem_cons.mp hx with rfl | hin <;> rcases mem_cons.mp hy with rfl | hin'
    · rfl
    · exact absurd ht' (apart y hin' t ht)
    · exact absurd ht (apart x hin t ht')
    · exact ih hd.2.1 hin hin'

theorem standing_filter (hd : ((before ++ entry :: after).flatMap seg).Nodup) :
    (standing seg (before ++ entry :: after) outs).filter (· ∉ seg entry) =
      standing seg (before ++ after) outs := by
  have hmid : (before.flatMap seg ++ seg entry ++ after.flatMap seg).Nodup := by simpa using hd
  have hcut := filter_not_mem_middle hmid
  simp only [standing, filter_filter, flatMap_append, flatMap_cons]
  rw [← hcut, filter_filter, append_assoc]
  apply filter_congr
  intro x _
  exact Bool.and_comm ..

theorem standing_outs (hd : ((before ++ entry :: after).flatMap seg).Nodup) :
    standing seg (before ++ after) (outs.filter (· ∉ seg entry)) =
      standing seg (before ++ after) outs := by
  apply filter_congr
  intro x hx
  have hne : x ∉ seg entry := by
    rw [flatMap_append, mem_append] at hx
    rw [flatMap_append, flatMap_cons, nodup_append, nodup_append] at hd
    rcases hx with hx | hx
    · exact fun hm => hd.2.2 x hx x (mem_append_left _ hm) rfl
    · exact fun hm => hd.2.1.2.2 x hm x hx rfl
  simp [hne]

theorem standing_split :
    standing seg (before ++ entry :: after) outs =
      standing seg before outs ++ (seg entry).filter (· ∉ outs) ++ standing seg after outs := by
  simp [standing]

namespace Placed

section

variable (hp : Placed seg p front placed back waiting outs d)
include hp

theorem carry (hl : e.Linked) (hs : d.nodes.size ≤ e.nodes.size)
    (hk : ∀ n < d.nodes.size, (e.kind n = .fragment ↔ d.kind n = .fragment))
    (ho : ∀ t ∈ outs, e.parent? t = none)
    (hc : e.children p = front ++ placed' ++ (standing seg waiting outs ++ back)) :
    Placed seg p front placed' back waiting outs e where
  linked := hl
  known := hp.known.trans_le hs
  children := hc
  out := by
    intro t ht
    obtain ⟨_, hsize, hkind, hx⟩ := hp.out t ht
    exact ⟨ho t ht, hsize.trans_le hs, fun h => hkind ((hk t hsize).mp h), hx⟩

theorem not_out (ht : t ∈ d.children p) : t ∉ outs := fun hout =>
  hp.linked.not_mem_of_loose (hp.out t hout).1 p ht

theorem mem_of_next
    (ht : (standing seg waiting outs ++ back).head? = some t) : t ∈ d.children p := by
  rw [hp.children]
  exact mem_append_right _ (mem_of_head? ht)

theorem takeOut (hx : x ∈ waiting) (hs : seg x = [t]) (ht : t ∉ outs) :
    Placed seg p front placed back waiting (t :: outs) (d.detach t) where
  linked := linked_detach hp.linked
  known := by simpa using hp.known
  children := by
    have hm : t ∈ standing seg waiting outs := by
      simpa [standing, ht] using ⟨x, hx, by simp [hs]⟩
    have hnd := hp.linked.nodup p
    have hmid : (front ++ placed ++ standing seg waiting outs ++ back).Nodup := by
      rw [hp.children] at hnd
      simpa using hnd
    obtain ⟨hfs, _, hsb⟩ := nodup_append.mp hmid
    obtain ⟨_, hsd, hfs⟩ := nodup_append.mp hfs
    have hfront : t ∉ front ++ placed := fun hf => hfs t hf t hm rfl
    rw [children_detach hp.linked.parent_of_mem, hp.children, erase_append_right _ hfront,
      erase_append_left _ hm, hsd.erase_eq_filter, standing, filter_filter]
    congr 2
    apply filter_congr
    intro y _
    by_cases hy : y = t <;> simp [hy]
  out := by
    intro u hu
    rw [parent?_detach, size_detach, kind_detach]
    by_cases hut : u = t
    · subst hut
      have hm : u ∈ d.children p := by
        rw [hp.children]
        simp only [mem_append, standing, mem_filter, mem_flatMap]
        exact Or.inr (Or.inl ⟨⟨x, hx, by simp [hs]⟩, by simpa using ht⟩)
      exact ⟨if_pos rfl, hp.linked.lt_size hm, hp.linked.plain hm, x, hx, hs⟩
    · rw [if_neg hut]
      exact hp.out u ((mem_cons.mp hu).resolve_left hut)

theorem insertFragment (hf : f < d.nodes.size) (hk : d.kind f = .fragment) (hne : p ≠ f) :
    Placed seg p front (placed ++ d.children f) back waiting outs
      (d.insertBefore p f (standing seg waiting outs ++ back).head?) := by
  obtain ⟨hg, hc⟩ := insertFragment_between hp.linked hp.known hf hk hne hp.children
  refine hp.carry hg.linked hg.size.symm.le (fun n _ => by rw [hg.kind]) ?_
    (by rw [hc]; simp)
  intro t ht
  have hl := (hp.out t ht).1
  rw [hg.parent?, if_neg (hp.linked.not_mem_of_loose hl f)]
  exact hl

end

section Entry

variable (hp : Placed seg p front placed back (before ++ entry :: after) outs d)
  (hd : ((before ++ entry :: after).flatMap seg).Nodup)

include hp hd

theorem settle (hl : e.Linked) (hs : e.nodes.size = d.nodes.size) (hk : ∀ n, e.kind n = d.kind n)
    (ho : ∀ t ∈ outs, t ∉ seg entry → e.parent? t = none) (hc : e.children p =
      front ++ (placed ++ seg entry) ++ (standing seg (before ++ after) outs ++ back)) :
    Placed seg p front (placed ++ seg entry) back (before ++ after)
      (outs.filter (· ∉ seg entry)) e where
  linked := hl
  known := hs ▸ hp.known
  children := by rw [hc, standing_outs hd]
  out := by
    intro t ht
    obtain ⟨hout, hne⟩ := mem_filter.mp ht
    have hne : t ∉ seg entry := by simpa using hne
    obtain ⟨_, hsize, hkind, x, hx, hsx⟩ := hp.out t hout
    refine ⟨ho t hout hne, by rw [hs]; exact hsize, by rw [hk]; exact hkind, x, ?_, hsx⟩
    have hxe : x ≠ entry := by
      rintro rfl
      exact hne (by simp [hsx])
    simpa [hxe] using hx

theorem settle_nil (hn : seg entry = []) :
    Placed seg p front (placed ++ seg entry) back (before ++ after)
      (outs.filter (· ∉ seg entry)) d := by
  refine hp.settle hd hp.linked rfl (fun _ => rfl) (fun t ht _ => (hp.out t ht).1) ?_
  rw [hp.children, standing_split, hn]
  simp [standing]

variable {a z : NodeId} (hx : ends (seg entry) = some (a, z))

include hx

omit hp hx in
theorem nodup_entry : (seg entry).Nodup := by
  rw [flatMap_append, flatMap_cons] at hd
  exact (nodup_append.mp (nodup_append.mp hd).2.1).1

theorem alone (ha : a ∈ outs) : seg entry = [a] := by
  obtain ⟨_, _, _, x, hx', hs⟩ := hp.out a ha
  rw [← hs]
  exact same_range hd (by simp) hx' (mem_of_ends hx) (by simp [hs])

theorem whole (ha : a ∉ outs) : (seg entry).filter (· ∉ outs) = seg entry := by
  rw [filter_eq_self]
  intro t ht
  simp only [decide_not, Bool.not_eq_true', decide_eq_false_iff_not]
  intro hout
  obtain ⟨_, _, _, x, hx', hs⟩ := hp.out t hout
  have heq : seg entry = [t] := by
    rw [← hs]
    exact same_range hd (by simp) hx' ht (by simp [hs])
  have hat : a = t := by simpa [heq] using mem_of_ends hx
  exact ha (hat ▸ hout)

theorem children_around (ha : a ∉ outs) :
    d.children p = (front ++ placed ++ standing seg before outs) ++ seg entry ++
      (standing seg after outs ++ back) := by
  rw [hp.children, standing_split, hp.whole hd hx ha]
  simp

theorem range_eq : d.range a z = seg entry := by
  by_cases ha : a ∈ outs
  · rw [hp.alone hd hx ha]
    exact range_of_loose (hp.out a ha).1
  · exact Document.range_eq hp.linked (hp.children_around hd hx ha) hx

theorem movable : ∀ n ∈ seg entry,
    n < d.nodes.size ∧ d.kind n ≠ .fragment ∧ n ∉ front ++ placed := by
  intro n hn
  by_cases ha : a ∈ outs
  · obtain rfl : n = a := by simpa [hp.alone hd hx ha] using hn
    obtain ⟨_, hs, hk, _⟩ := hp.out n ha
    refine ⟨hs, hk, fun hm => hp.not_out ?_ ha⟩
    rw [hp.children]
    exact mem_append_left _ hm
  · have hc := hp.children_around hd hx ha
    have hm : n ∈ d.children p := by simp [hc, hn]
    refine ⟨hp.linked.lt_size hm, hp.linked.plain hm, fun hf => ?_⟩
    have hnd := hp.linked.nodup p
    rw [hc, append_assoc, append_assoc] at hnd
    exact (nodup_append.mp hnd).2.2 n hf n (by simp [hn]) rfl

theorem before_nil (ha : a ∉ outs) (hn : n ∈ seg entry)
    (hhead : (standing seg (before ++ entry :: after) outs ++ back).head? = some n) :
    standing seg before outs = [] := by
  have hnd := hp.linked.nodup p
  rw [hp.children_around hd hx ha, append_assoc, append_assoc] at hnd
  rw [standing_split, hp.whole hd hx ha] at hhead
  cases hb : standing seg before outs with
  | nil => rfl
  | cons m ms =>
    rw [hb] at hhead hnd
    obtain rfl : m = n := by simpa using hhead
    have := (nodup_append.mp (nodup_append.mp hnd).2.1).2.2
    exact absurd rfl (this m (by simp) m (by simp [hn]))

theorem next_ne (hne : (standing seg (before ++ entry :: after) outs ++ back).head? ≠ some a) :
    ∀ n ∈ seg entry, (standing seg (before ++ entry :: after) outs ++ back).head? ≠ some n := by
  intro n hn hhead
  by_cases ha : a ∈ outs
  · obtain rfl : n = a := by simpa [hp.alone hd hx ha] using hn
    exact hp.not_out (hp.mem_of_next hhead) ha
  · rw [standing_split, hp.whole hd hx ha, hp.before_nil hd hx ha hn hhead] at hne
    obtain ⟨ms, hms⟩ := eq_cons_of_ends hx
    exact hne (by simp [hms])

theorem stay (ht : (standing seg (before ++ entry :: after) outs ++ back).head? = some a) :
    Placed seg p front (placed ++ seg entry) back (before ++ after)
      (outs.filter (· ∉ seg entry)) d := by
  refine hp.settle hd hp.linked rfl (fun _ => rfl) (fun t ht _ => (hp.out t ht).1) ?_
  have ha : a ∉ outs := hp.not_out (hp.mem_of_next ht)
  have hbefore := hp.before_nil hd hx ha (mem_of_ends hx) ht
  have hrest : standing seg (before ++ after) outs = standing seg after outs := by
    rw [← nil_append (standing seg after outs), ← hbefore]
    simp [standing]
  rw [hp.children_around hd hx ha, hbefore, hrest]
  simp

theorem move (hne : (standing seg (before ++ entry :: after) outs ++ back).head? ≠ some a) :
    Placed seg p front (placed ++ seg entry) back (before ++ after)
      (outs.filter (· ∉ seg entry))
      ((seg entry).foldl (fun d n => d.insertBefore p n
        (standing seg (before ++ entry :: after) outs ++ back).head?) d) := by
  obtain ⟨hg, hc⟩ := insertAll_between hp.linked hp.known hp.children (nodup_entry hd)
    (hp.movable hd hx) (hp.next_ne hd hx hne)
  have hback : back.filter (· ∉ seg entry) = back := by
    rw [filter_eq_self]
    intro n hn
    simp only [decide_not, Bool.not_eq_true', decide_eq_false_iff_not]
    intro hm
    by_cases ha : a ∈ outs
    · obtain rfl : n = a := by simpa [hp.alone hd hx ha] using hm
      exact hp.not_out (by simp [hp.children, hn]) ha
    · have hnd := hp.linked.nodup p
      rw [hp.children_around hd hx ha] at hnd
      exact (nodup_append.mp hnd).2.2 n (by simp [hm]) n (by simp [hn]) rfl
  refine hp.settle hd hg.linked hg.size hg.kind ?_ ?_
  · intro t ht hne
    rw [hg.parent?, if_neg hne]
    exact (hp.out t ht).1
  · rw [hc, filter_append, standing_filter hd, hback]
    simp

theorem swap (hs : seg entry = [a])
    (ht : (standing seg (before ++ entry :: after) outs ++ back).head? = some t) (hta : t ≠ a)
    (hm : x ∈ before ++ entry :: after) (hxt : seg x = [t]) :
    Placed seg p front (placed ++ seg entry) back (before ++ after)
      (t :: outs.filter (· ∉ seg entry)) (d.replaceChild p a t) := by
  have hmoved := hp.move hd hx (by rw [ht]; simpa using hta)
  have heq : d.replaceChild p a t = ((seg entry).foldl (fun d n => d.insertBefore p n
      (standing seg (before ++ entry :: after) outs ++ back).head?) d).detach t := by
    rw [replaceChild, if_neg (Ne.symm hta), hs, ht]
    rfl
  have hxe : x ≠ entry := by
    rintro rfl
    rw [hs] at hxt
    exact hta (by simpa using hxt.symm)
  rw [heq]
  exact hmoved.takeOut (by simpa [hxe] using hm) hxt (by simp [hp.not_out (hp.mem_of_next ht)])

end Entry

end Placed

end ReactiveMarkup.Reactive
