import Mathlib.Data.List.Induction
import ReactiveMarkup.Proofs.Expansions
import ReactiveMarkup.Reactive.Rose

/-! # Selection

The elements of a component form a forest, in which the bodies of blocks belong to the element
around them. Which elements a selector selects is said on this forest.
-/

namespace ReactiveMarkup.Style

open List Markup
open Reactive (Rose)

/-! ## The forest of elements -/

mutual

/-- The elements of a node that stand in no other element of it. -/
def nest : Node → List (Rose Element)
  | .element e body _ => [.node e (nestAll body)]
  | .each _ body _ | .slot _ body _ | .fragment _ body _ => nestAll body
  | .cond _ body _ alt _ => nestAll body ++ nestAll alt
  | .await _ main _ thenBody _ catchBody _ => nestAll main ++ nestAll thenBody ++ nestAll catchBody
  | .text .. | .comment .. | .raw _ | .sysTag .. => []

def nestAll : List Node → List (Rose Element)
  | [] => []
  | n :: ns => nest n ++ nestAll ns

end

/-- Where an element stands: its number in its row, then the spot of the element around it. The
outermost elements form a row as well. -/
abbrev Spot := List Nat

mutual

def spots (spot : Spot) : Rose Element → List (Spot × Element)
  | .node e inner => (spot, e) :: spotsFrom spot 0 inner

def spotsFrom (up : Spot) (i : Nat) : List (Rose Element) → List (Spot × Element)
  | [] => []
  | t :: ts => spots (i :: up) t ++ spotsFrom up (i + 1) ts

end

def spotsOf (root : Root) : List (Spot × Element) := spotsFrom [] 0 (nestAll root.body)

/-- The first spot stands where a combinator looks from the second one. -/
def Faces : Relation → Spot → Spot → Prop
  | .descendant, a, b => a ≠ [] ∧ ∃ nearer, nearer ≠ [] ∧ b = nearer ++ a
  | .child, a, b => a ≠ [] ∧ ∃ i, b = i :: a
  | .adjacent, a, b => ∃ i up, a = i :: up ∧ b = (i + 1) :: up
  | .sibling, a, b => ∃ i j up, i < j ∧ a = i :: up ∧ b = j :: up

/-- A choice of an element for each compound, the last one first. Elements are named by their
number in document order. -/
inductive Assigns (ps : List (Spot × Element)) : List Compound → List Nat → Prop
  | first : ps[k]? = some (spot, e) → c.accepts e = true → Assigns ps [c] [k]
  | behind : ps[k]? = some (spot, e) → c.accepts e = true → ps[j]? = some x →
    Faces c.relation x.1 spot → Assigns ps cs (j :: js) → Assigns ps (c :: cs) (k :: j :: js)

theorem Assigns.length (h : Assigns ps cs ns) : ns.length = cs.length := by
  induction h with
  | first _ _ => rfl
  | behind _ _ _ _ _ ih => rw [length_cons, ih, length_cons]

theorem spotsFrom_append :
    spotsFrom up i (ts ++ us) = spotsFrom up i ts ++ spotsFrom up (i + ts.length) us := by
  induction ts generalizing i with
  | nil => rfl
  | cons t ts ih =>
    rw [cons_append, spotsFrom, spotsFrom, ih, append_assoc, length_cons,
      Nat.add_assoc i 1, Nat.add_comm 1]

mutual

theorem suffix_of_mem_spots : ∀ (t : Rose Element) (spot : Spot),
    ∀ x ∈ spots spot t, spot <:+ x.1
  | .node e inner, spot, x, hx => by
    rw [spots, mem_cons] at hx
    rcases hx with rfl | hx
    · exact suffix_rfl
    · obtain ⟨m, _, _, hm⟩ := suffix_of_mem_spotsFrom inner spot 0 x hx
      exact (suffix_cons m spot).trans hm

theorem suffix_of_mem_spotsFrom : ∀ (ts : List (Rose Element)) (up : Spot) (i : Nat),
    ∀ x ∈ spotsFrom up i ts, ∃ m, i ≤ m ∧ m < i + ts.length ∧ (m :: up) <:+ x.1
  | [], _, _, x, hx => absurd hx (by simp [spotsFrom])
  | t :: ts, up, i, x, hx => by
    rw [spotsFrom, mem_append] at hx
    rcases hx with hx | hx
    · exact ⟨i, le_rfl, by simp, suffix_of_mem_spots t (i :: up) x hx⟩
    · obtain ⟨m, hlow, hhigh, hm⟩ := suffix_of_mem_spotsFrom ts up (i + 1) x hx
      refine ⟨m, by omega, ?_, hm⟩
      rw [length_cons]
      omega

end

theorem row_spots : ((spots (i :: up) t).map (·.1)).filter (·.tail == up) = [i :: up] := by
  cases t with
  | node e inner =>
    rw [spots, map_cons, filter_cons_of_pos (by simp), cons.injEq]
    refine ⟨rfl, filter_eq_nil_iff.mpr fun p hp => ?_⟩
    obtain ⟨x, hx, rfl⟩ := mem_map.mp hp
    obtain ⟨m, _, _, hm⟩ := suffix_of_mem_spotsFrom inner (i :: up) 0 x hx
    intro htail
    have hlen := hm.length_le
    have htail : x.1.tail = up := by simpa using htail
    have := congrArg length htail
    rw [length_tail] at this
    simp only [length_cons] at hlen
    omega

theorem row_spotsFrom : ((spotsFrom up i ts).map (·.1)).filter (·.tail == up) =
      (range' i ts.length).map (· :: up) := by
  induction ts generalizing i with
  | nil => rfl
  | cons t ts ih =>
    rw [spotsFrom, map_append, filter_append, row_spots, ih, length_cons,
      range'_succ]
    rfl

/-! ## Positions and spots -/

/-- The positions `ks` hold elements at the spots `ss`, in this order. -/
def Spotted (ps : List (Spot × Element)) (ks : List Nat) (ss : List Spot) : Prop :=
  ks.map (fun k => ps[k]?.map (·.1)) = ss.map some

def Distinct (ps : List (Spot × Element)) : Prop := (ps.map (·.1)).Nodup

section Spotted

variable {ps : List (Spot × Element)} {ks ls : List Nat} {ss ts : List Spot}

theorem Distinct.position {j k : Nat} (hd : Distinct ps) (hj : ps[j]? = some x)
    (hk : ps[k]? = some y) (hxy : x.1 = y.1) : j = k := by
  have hj' : (ps.map (·.1))[j]? = some x.1 := by rw [getElem?_map, hj]; rfl
  have hk' : (ps.map (·.1))[k]? = some x.1 := by rw [getElem?_map, hk, hxy]; rfl
  have hlt : j < (ps.map (·.1)).length := (List.getElem?_eq_some_iff.mp hj').1
  exact (getElem?_inj hlt hd).mp (hj'.trans hk'.symm)

section

variable (h : Spotted ps ks ss)
include h

theorem Spotted.append (added : List (Spot × Element)) : Spotted (ps ++ added) ks ss := by
  unfold Spotted at h ⊢
  rw [← h]
  refine map_congr_left fun k hk => ?_
  have hmem : ps[k]?.map (·.1) ∈ ss.map some := h ▸ mem_map_of_mem hk
  obtain ⟨s, _, hs⟩ := mem_map.mp hmem
  obtain ⟨x, hx, _⟩ := Option.map_eq_some_iff.mp hs.symm
  rw [getElem?_append_left (List.getElem?_eq_some_iff.mp hx).1]

theorem Spotted.reverse : Spotted ps ks.reverse ss.reverse := by
  unfold Spotted at h ⊢
  rw [map_reverse, map_reverse, h]

theorem Spotted.mem_iff (hd : Distinct ps) : j ∈ ks ↔ ∃ x, ps[j]? = some x ∧ x.1 ∈ ss := by
  constructor
  · intro hj
    have hmem : ps[j]?.map (·.1) ∈ ss.map some := h ▸ mem_map_of_mem hj
    obtain ⟨s, hs, hjs⟩ := mem_map.mp hmem
    obtain ⟨x, hx, rfl⟩ := Option.map_eq_some_iff.mp hjs.symm
    exact ⟨x, hx, hs⟩
  · rintro ⟨x, hx, hs⟩
    have hmem : some x.1 ∈ ks.map (fun k => ps[k]?.map (·.1)) := h ▸ mem_map_of_mem hs
    obtain ⟨k, hk, hkx⟩ := mem_map.mp hmem
    obtain ⟨y, hy, hyx⟩ := Option.map_eq_some_iff.mp hkx
    rwa [hd.position hx hy hyx.symm]

theorem Spotted.head : Spotted ps ks.head?.toList ss.head?.toList := by
  unfold Spotted at h
  cases ks with
  | nil =>
    rw [map_nil, eq_comm, map_eq_nil_iff] at h
    rw [h]
    rfl
  | cons k ks =>
    cases ss with
    | nil => simp at h
    | cons s ss =>
      rw [map_cons, map_cons, cons.injEq] at h
      exact congrArg ([·]) h.1

theorem Spotted.head_eq_iff (h' : Spotted ps ls ts) (hd : Distinct ps) :
    ks.head? = ls.head? ↔ ss.head? = ts.head? := by
  constructor
  · intro heq
    have hmaps : ss.head?.toList.map some = ts.head?.toList.map some := by
      rw [← h.head, ← h'.head, heq]
    cases hs : ss.head? <;> cases ht : ts.head? <;> simp_all
  · intro heq
    apply Option.ext
    intro j
    rw [← Option.mem_toList, ← Option.mem_toList, h.head.mem_iff hd, h'.head.mem_iff hd, heq]

end

end Spotted

/-- The spots of the elements around a row, from the inside to the outside. -/
@[simp] def around : Spot → List Spot
  | [] => []
  | i :: up => (i :: up) :: around up

theorem mem_around : a ∈ around up ↔ a ≠ [] ∧ a <:+ up := by
  induction up with
  | nil => simp
  | cons i up ih =>
    rw [around, mem_cons, ih, suffix_cons_iff]
    constructor
    · rintro (rfl | ⟨hne, hs⟩)
      · exact ⟨by simp, Or.inl rfl⟩
      · exact ⟨hne, Or.inr hs⟩
    · rintro ⟨hne, rfl | hs⟩
      · exact Or.inl rfl
      · exact Or.inr ⟨hne, hs⟩

theorem head?_around : (around up).head? = if up = [] then none else some up := by
  cases up <;> simp

theorem head?_around_inj : (around up).head? = (around up').head? ↔ up = up' := by
  cases up <;> cases up' <;> simp

/-- The spots of a row before its `i`-th one, nearest first. -/
def before (up : Spot) (i : Nat) : List Spot := ((range i).map (· :: up)).reverse

theorem mem_before : a ∈ before up i ↔ ∃ j < i, a = j :: up := by
  simp [before, eq_comm]

theorem head?_before : (before up i).head? = if i = 0 then none else some ((i - 1) :: up) := by
  cases i with
  | zero => rfl
  | succ i => simp [before, range_succ]

/-! ## The outline of a forest -/

namespace Outline

/-- The lists of an element at a spot lead to the elements around it and before it. -/
structure Leads (ps : List (Spot × Element)) (ancestors earlier : List Nat) (i : Nat) (up : Spot) :
    Prop where
  ancestors : Spotted ps ancestors (around up)
  earlier : Spotted ps earlier (before up i)

/-- An outline lists these elements, and the lists of each lead to where they should. -/
structure Draws (o : Outline) (ps : List (Spot × Element)) : Prop where
  linked : o.Linked
  length : o.elements.length = ps.length
  distinct : Distinct ps
  element : ∀ {k : Nat} {spot : Spot} {e : Element}, ps[k]? = some (spot, e) →
    ∃ ancestors earlier i up, spot = i :: up ∧
    o.elements[k]? = some (describe ancestors earlier e) ∧ Leads ps ancestors earlier i up

/-- The next element of the row in `up` has the number `i`. -/
structure Room (ps : List (Spot × Element)) (ancestors : List Nat) (up : Spot) (i : Nat) :
    Prop where
  ancestors : Spotted ps ancestors (around up)
  row : (ps.map (·.1)).filter (·.tail == up) = (range i).map (· :: up)
  fresh : ∀ x ∈ ps, ∀ m, i ≤ m → ¬ (m :: up) <:+ x.1

variable {o : Outline} {ps : List (Spot × Element)} {anc : List Nat} {up : Spot} {i : Nat}

theorem Room.grow (h : Room ps anc up i) :
    Room (ps ++ spotsFrom up i ts) anc up (i + ts.length) where
  ancestors := h.ancestors.append _
  row := by
    rw [map_append, filter_append, h.row, row_spotsFrom, ← map_append,
      range_eq_range', range_eq_range', ← range'_append_1, Nat.zero_add]
  fresh := by
    intro x hx m hm hsuffix
    rcases mem_append.mp hx with hx | hx
    · exact h.fresh x hx m (by omega) hsuffix
    · obtain ⟨l, _, hl, hsuffix'⟩ := suffix_of_mem_spotsFrom ts up i x hx
      have heq : m :: up = l :: up := by
        refine (suffix_of_suffix_length_le hsuffix hsuffix' (by simp)).eq_of_length ?_
        simp
      have : m = l := (cons.inj heq).1
      omega

theorem Room.inside (h : Room ps anc up i) (e : Element) :
    Room (ps ++ [(i :: up, e)]) (ps.length :: anc) (i :: up) 0 where
  ancestors := by
    have hown : (ps ++ [(i :: up, e)])[ps.length]? = some (i :: up, e) := by simp
    have hup := h.ancestors.append [(i :: up, e)]
    unfold Spotted at hup ⊢
    rw [map_cons, hup, hown, around]
    rfl
  row := by
    rw [range_zero, map_nil, filter_eq_nil_iff]
    intro p hp htail
    have htail : p.tail = i :: up := by simpa using htail
    obtain ⟨x, hx, rfl⟩ := mem_map.mp hp
    rcases mem_append.mp hx with hx | hx
    · exact h.fresh x hx i le_rfl (htail ▸ tail_suffix x.1)
    · rw [mem_singleton.mp hx] at htail
      simpa using congrArg length htail
  fresh := by
    intro x hx m _ hsuffix
    have hown : (i :: up) <:+ x.1 := (suffix_cons m (i :: up)).trans hsuffix
    rcases mem_append.mp hx with hx | hx
    · exact h.fresh x hx i le_rfl hown
    · rw [mem_singleton.mp hx] at hsuffix
      have := hsuffix.length_le
      simp only [length_cons] at this
      omega

theorem positions_eq :
    o.positions p = (range o.elements.length).filter fun k => o.elements[k]?.any p := by
  unfold positions
  generalize o.elements = es
  induction es using reverseRecOn with
  | nil => rfl
  | append_singleton es e ih =>
    have hold : (range es.length).filter (fun k => (es ++ [e])[k]?.any p) =
        (range es.length).filter fun k => es[k]?.any p := by
      refine filter_congr fun k hk => ?_
      rw [getElem?_append_left (mem_range.mp hk)]
    rw [zipIdx_append, filter_append, map_append, ih, length_append,
      length_singleton, range_succ, filter_append, hold]
    cases hp : p e <;> simp [filter, hp]

theorem Draws.children (hd : Draws o ps) (hr : Room ps anc up i) :
    Spotted ps (o.children anc.head?) ((range i).map (· :: up)) := by
  have hsame : (range o.elements.length).filter
      (fun k => o.elements[k]?.any fun e => e.parent == anc.head?) =
      (range ps.length).filter fun k => (ps[k]?.map (·.1)).any fun p => p.tail == up := by
    rw [hd.length]
    refine filter_congr fun k hk => ?_
    obtain ⟨⟨spot, e⟩, hx⟩ : ∃ x, ps[k]? = some x :=
      ⟨_, getElem?_eq_getElem (mem_range.mp hk)⟩
    obtain ⟨above, earlier, j, up', rfl, hk, hleads⟩ := hd.element hx
    have hhead := hleads.ancestors.head_eq_iff hr.ancestors hd.distinct
    rw [head?_around_inj] at hhead
    rw [hx, hk, Option.any_some, parent_describe, Option.map_some, Option.any_some, tail_cons]
    rw [Bool.eq_iff_iff, beq_iff_eq, beq_iff_eq]
    exact hhead
  have hall : (range ps.length).map (fun k => ps[k]?.map (·.1)) = ps.map fun x => some x.1 := by
    refine ext_getElem (by simp) fun k hk _ => ?_
    simp at hk
    simp [hk]
  have hpick : ((range ps.length).map fun k => ps[k]?.map (·.1)).filter
      (fun s : Option Spot => s.any fun p => p.tail == up) =
      ((ps.map (·.1)).map some).filter fun s : Option Spot => s.any fun p => p.tail == up := by
    rw [hall, map_map]
    rfl
  rw [filter_map, filter_map] at hpick
  rw [hd.linked.children, positions_eq, hsame, Spotted, ← hr.row]
  exact hpick

theorem Draws.push (hd : Draws o ps) (hr : Room ps anc up i) :
    Draws (o.push (describe anc (o.children anc.head?).reverse e)) (ps ++ [(i :: up, e)]) where
  linked := by
    refine hd.linked.push fun p hp => ?_
    rw [parent_describe] at hp
    obtain ⟨x, hx, -⟩ := (hr.ancestors.mem_iff hd.distinct).mp (mem_of_mem_head? hp)
    rw [hd.length]
    exact (List.getElem?_eq_some_iff.mp hx).1
  length := by simp [hd.length]
  distinct := by
    rw [Distinct, map_append]
    refine nodup_append.mpr ⟨hd.distinct, by simp, ?_⟩
    rintro p hp q hq rfl
    obtain ⟨x, hx, rfl⟩ := mem_map.mp hp
    rw [map_singleton, mem_singleton] at hq
    exact hr.fresh x hx i le_rfl (hq ▸ suffix_rfl)
  element := by
    intro k spot x hk
    rcases Nat.lt_trichotomy k ps.length with hlt | rfl | hgt
    · rw [getElem?_append_left hlt] at hk
      obtain ⟨above, earlier, j, up', rfl, hx, hleads⟩ := hd.element hk
      refine ⟨above, earlier, j, up', rfl, ?_, hleads.ancestors.append _, hleads.earlier.append _⟩
      rw [elements_push, getElem?_append_left (hd.length ▸ hlt)]
      exact hx
    · have hx : (i :: up, e) = (spot, x) := by simpa using hk
      cases hx
      refine ⟨anc, (o.children anc.head?).reverse, i, up, rfl, ?_,
        hr.ancestors.append _, (hd.children hr).reverse.append _⟩
      rw [← hd.length]
      simp
    · rw [getElem?_eq_none (by simp; omega)] at hk
      cases hk

mutual

theorem Draws.plant : ∀ (n : Node) {o : Outline} {ps : List (Spot × Element)}
    {anc : List Nat} {up : Spot} {i : Nat}, Draws o ps → Room ps anc up i →
      Draws (plant anc o n) (ps ++ spotsFrom up i (nest n))
  | .element e body s, o, ps, anc, up, i, hd, hr => by
    have hbody := Draws.plantAll body (hd.push hr) (hr.inside e)
    rw [append_assoc] at hbody
    rw [Outline.plant, nest, spotsFrom, spots, spotsFrom, append_nil, hd.length]
    exact hbody
  | .each _ body _, _, _, _, _, _, hd, hr | .slot _ body _, _, _, _, _, _, hd, hr
  | .fragment _ body _, _, _, _, _, _, hd, hr => Draws.plantAll body hd hr
  | .cond _ body _ alt _, _, _, _, _, _, hd, hr => by
    rw [nest, spotsFrom_append, ← append_assoc]
    exact Draws.plantAll alt (Draws.plantAll body hd hr) hr.grow
  | .await _ main _ thenBody _ catchBody _, _, _, _, _, _, hd, hr => by
    rw [nest, spotsFrom_append, spotsFrom_append, ← append_assoc, ← append_assoc,
      length_append, ← Nat.add_assoc]
    exact Draws.plantAll catchBody
      (Draws.plantAll thenBody (Draws.plantAll main hd hr) hr.grow) (hr.grow.grow)
  | .text .., _, _, _, _, _, hd, _ | .comment .., _, _, _, _, _, hd, _
  | .raw _, _, _, _, _, _, hd, _ | .sysTag .., _, _, _, _, _, hd, _ => by
    rwa [nest, spotsFrom, append_nil]

theorem Draws.plantAll : ∀ (ns : List Node) {o : Outline} {ps : List (Spot × Element)}
    {anc : List Nat} {up : Spot} {i : Nat}, Draws o ps → Room ps anc up i →
      Draws (plantAll anc o ns) (ps ++ spotsFrom up i (nestAll ns))
  | [], _, _, _, _, _, hd, _ => by rwa [nestAll, spotsFrom, append_nil]
  | n :: ns, _, _, _, _, _, hd, hr => by
    rw [nestAll, spotsFrom_append, ← append_assoc]
    exact Draws.plantAll ns (Draws.plant n hd hr) hr.grow

end

theorem draws_ofRoot (root : Root) : Draws (ofRoot root) (spotsOf root) := by
  have hnone : Draws {} [] := ⟨linked_empty, rfl, nodup_nil, fun h => by simp at h⟩
  have hroom : Room [] [] [] 0 := ⟨rfl, rfl, by simp⟩
  have hall := hnone.plantAll root.body hroom
  rwa [nil_append] at hall

/-! ## Search -/

theorem Leads.mem_candidates {earlier : List Nat} (h : Leads ps anc earlier i up)
    (hd : Distinct ps) (e : Element) : j ∈ candidates (describe anc earlier e) r ↔
      ∃ x, ps[j]? = some x ∧ Faces r x.1 (i :: up) := by
  rw [describe_eq]
  cases r with
  | descendant =>
    change j ∈ anc ↔ _
    rw [h.ancestors.mem_iff hd]
    refine exists_congr fun x => and_congr_right fun _ => ?_
    rw [mem_around]
    refine and_congr_right fun _ => ⟨?_, ?_⟩
    · rintro ⟨nearer, rfl⟩
      exact ⟨i :: nearer, by simp, rfl⟩
    · rintro ⟨nearer, hne, heq⟩
      obtain ⟨m, nearer, rfl⟩ := exists_cons_of_ne_nil hne
      exact ⟨nearer, (cons.inj heq).2.symm⟩
  | child =>
    change j ∈ anc.head?.toList ↔ _
    rw [h.ancestors.head.mem_iff hd, head?_around]
    refine exists_congr fun x => and_congr_right fun _ => ⟨?_, ?_⟩
    · intro hx
      split at hx
      · cases hx
      · next hup =>
        rw [Option.toList_some, mem_singleton] at hx
        exact ⟨hx ▸ hup, i, hx ▸ rfl⟩
    · rintro ⟨hne, m, heq⟩
      obtain ⟨rfl, rfl⟩ := cons.inj heq
      rw [if_neg hne]
      exact mem_singleton_self _
  | adjacent =>
    change j ∈ earlier.head?.toList ↔ _
    rw [h.earlier.head.mem_iff hd, head?_before]
    refine exists_congr fun x => and_congr_right fun _ => ⟨?_, ?_⟩
    · intro hx
      split at hx
      · cases hx
      · rw [Option.toList_some, mem_singleton] at hx
        exact ⟨i - 1, up, hx, by rw [Nat.sub_add_cancel (by omega)]⟩
    · rintro ⟨m, up', hx, heq⟩
      obtain ⟨rfl, rfl⟩ := cons.inj heq
      rw [hx, if_neg (by omega)]
      exact mem_singleton_self _
  | sibling =>
    change j ∈ earlier ↔ _
    rw [h.earlier.mem_iff hd]
    refine exists_congr fun x => and_congr_right fun _ => ?_
    rw [mem_before]
    constructor
    · rintro ⟨l, hl, hx⟩
      exact ⟨l, i, up, hl, hx, rfl⟩
    · rintro ⟨l, m, up', hl, hx, heq⟩
      obtain ⟨rfl, rfl⟩ := cons.inj heq
      exact ⟨l, hl, hx⟩

theorem Draws.assigns_of_matchAt (hd : Draws o ps) (h : o.matchAt cs k = some path) :
    Assigns ps cs (k :: path.reverse) := by
  induction cs generalizing k path with
  | nil => simp [matchAt] at h
  | cons c cs ih =>
    rw [matchAt] at h
    split at h
    · cases h
    · next x hx =>
      have hlt : k < ps.length := hd.length ▸ (List.getElem?_eq_some_iff.mp hx).1
      obtain ⟨⟨spot, e⟩, hk⟩ : ∃ y, ps[k]? = some y := ⟨_, getElem?_eq_getElem hlt⟩
      obtain ⟨anc, earlier, i, up, rfl, hdraw, hleads⟩ := hd.element hk
      obtain rfl : x = describe anc earlier e := Option.mem_unique hx hdraw
      rw [holds_describe] at h
      split at h
      · next hc =>
        split at h
        · next hempty =>
          cases h
          rw [isEmpty_iff.mp hempty]
          exact .first hk hc
        · obtain ⟨j, hj, hfound⟩ := exists_of_findSome?_eq_some h
          obtain ⟨way, hway, rfl⟩ := Option.map_eq_some_iff.mp hfound
          obtain ⟨y, hy, hface⟩ := (hleads.mem_candidates hd.distinct e).mp hj
          rw [reverse_append, reverse_singleton, singleton_append]
          exact .behind hk hc hy hface (ih hway)
      · cases h

theorem Draws.chain_of_assigns (hd : Draws o ps) (h : Assigns ps cs (k :: ns)) :
    Chain o (fun _ => True) cs k := by
  generalize hks : k :: ns = ks at h
  induction h generalizing k ns with
  | @first _ _ e c hk hc =>
    cases hks
    obtain ⟨anc, earlier, i, up, rfl, hdraw, _⟩ := hd.element hk
    exact .start hdraw ((holds_describe c).trans hc) trivial
  | @behind _ _ e j x cs js c hk hc hx hface _ ih =>
    cases hks
    obtain ⟨anc, earlier, i, up, rfl, hdraw, hleads⟩ := hd.element hk
    have hj := (hleads.mem_candidates hd.distinct e).mpr ⟨x, hx, hface⟩
    exact .before hdraw ((holds_describe c).trans hc) trivial hj (ih rfl)

theorem Draws.sourceAt (hd : Draws o ps) (k : Nat) :
    o.sourceAt k = (ps[k]?.map (·.2.id)).getD 0 := by
  unfold Outline.sourceAt
  cases hk : ps[k]? with
  | none =>
    rw [getElem?_eq_none (hd.length ▸ getElem?_eq_none_iff.mp hk)]
    rfl
  | some x =>
    obtain ⟨anc, earlier, i, up, _, hdraw, _⟩ := hd.element hk
    rw [hdraw, Option.map_some, Option.map_some, source_describe]

end Outline

/-- The source number of the element at a position in document order. -/
def elementAt (root : Root) (k : Nat) : Nat := ((spotsOf root)[k]?.map (·.2.id)).getD 0

/-- Static matching selects exactly the elements that end a choice for the compounds of a selector.
It names them in document order, each one once and with such a choice. -/
theorem select_iff_assigns (root : Root) (s : Selector) (chain : List Compound)
    (hc : compounds s = .ok chain) :
    ∃ found : List (Nat × List Nat),
      (Outline.ofRoot root).select s =
        .ok (found.map fun f => ⟨elementAt root f.1, f.2.map (elementAt root)⟩) ∧
      (found.map (·.1)).Pairwise (· < ·) ∧
      (∀ k, k ∈ found.map (·.1) ↔ ∃ ns, Assigns (spotsOf root) chain (k :: ns)) ∧
      ∀ f ∈ found, f.2.length + 1 = chain.length ∧
        Assigns (spotsOf root) chain (f.1 :: f.2.reverse) := by
  have hd := Outline.draws_ofRoot root
  generalize Outline.ofRoot root = o at hd
  have hmem : ∀ {k path}, (k, path) ∈ (range o.elements.length).filterMap
      (fun k => (o.matchAt chain k).map (k, ·)) ↔ o.matchAt chain k = some path := by
    intro k path
    rw [mem_filterMap]
    constructor
    · rintro ⟨l, _, hl⟩
      obtain ⟨way, hway, heq⟩ := Option.map_eq_some_iff.mp hl
      obtain ⟨rfl, rfl⟩ := Prod.mk.inj heq
      exact hway
    · intro hpath
      exact ⟨k, mem_range.mpr (Outline.matchAt_lt hpath).1, by rw [hpath]; rfl⟩
  refine ⟨(range o.elements.length).filterMap fun k => (o.matchAt chain k).map (k, ·),
    ?_, ?_, fun k => ⟨?_, ?_⟩, ?_⟩
  · rw [Outline.select, hc, map_filterMap, funext hd.sourceAt]
    simp only [Option.map_map]
    rfl
  · rw [pairwise_map]
    refine List.Pairwise.filterMap _ ?_ pairwise_lt_range
    rintro j k hlt ⟨j', way⟩ hj ⟨k', way'⟩ hk
    obtain ⟨_, _, hj⟩ := Option.map_eq_some_iff.mp hj
    obtain ⟨_, _, hk⟩ := Option.map_eq_some_iff.mp hk
    cases hj
    cases hk
    exact hlt
  · intro hk
    obtain ⟨⟨k, path⟩, hf, rfl⟩ := mem_map.mp hk
    exact ⟨path.reverse, hd.assigns_of_matchAt (hmem.mp hf)⟩
  · rintro ⟨ns, hns⟩
    obtain ⟨path, hpath⟩ := (hd.chain_of_assigns hns).matchAt
    exact mem_map.mpr ⟨(k, path), hmem.mpr hpath, rfl⟩
  · rintro ⟨k, path⟩ hf
    have hassigns := hd.assigns_of_matchAt (hmem.mp hf)
    have hlength := hassigns.length
    rw [length_cons, length_reverse] at hlength
    exact ⟨hlength, hassigns⟩

/-! A list in which the mark of a later entry stands in a condition. -/

section Sample

def siblingList : Root where
  body := [.element (sampleElement 0 "ul")
    [.each "#each xs as x" [.element (sampleElement 1 "li") [] ⟨0, 0⟩,
      .element (sampleElement 2 "li") [.cond "#if x" [.element (sampleElement 3 "b") [] ⟨0, 0⟩]
        false [] ⟨0, 0⟩] ⟨0, 0⟩] ⟨0, 0⟩] ⟨0, 0⟩]
  span := ⟨0, 0⟩

/-- A selector with three combinators: `ul>li~li b`. -/
def siblingMark : Selector :=
  [{ kind := .type "ul" }, { kind := .combinator .child }, { kind := .type "li" },
    { kind := .combinator .sibling }, { kind := .type "li" }, { kind := .space },
    { kind := .type "b" }]

def siblingCompounds : List Compound :=
  [{ tag := some "b" }, { relation := .sibling, tag := some "li" },
    { relation := .child, tag := some "li" }, { tag := some "ul" }]

theorem select_iff_assigns_siblingList :
    compounds siblingMark = .ok siblingCompounds ∧
      Assigns (spotsOf siblingList) siblingCompounds [3, 2, 1, 0] ∧
      ∃ found : List (Nat × List Nat), (Outline.ofRoot siblingList).select siblingMark =
        .ok (found.map fun f =>
          ⟨elementAt siblingList f.1, f.2.map (elementAt siblingList)⟩) ∧
        3 ∈ found.map (·.1) := by
  have hassigns : Assigns (spotsOf siblingList) siblingCompounds [3, 2, 1, 0] :=
    .behind (rfl : _ = some ([0, 1, 0], sampleElement 3 "b")) (by decide) rfl
      ⟨by simp, [0], by simp, rfl⟩
      (.behind (rfl : _ = some ([1, 0], sampleElement 2 "li")) (by decide) rfl
        ⟨0, 1, [0], by decide, rfl, rfl⟩
        (.behind (rfl : _ = some ([0, 0], sampleElement 1 "li")) (by decide) rfl
          ⟨by simp, 0, rfl⟩ (.first rfl (by decide))))
  obtain ⟨found, hselect, _, hmem, _⟩ :=
    select_iff_assigns siblingList siblingMark siblingCompounds rfl
  exact ⟨rfl, hassigns, found, hselect, (hmem 3).mpr ⟨_, hassigns⟩⟩

end Sample

end ReactiveMarkup.Style
