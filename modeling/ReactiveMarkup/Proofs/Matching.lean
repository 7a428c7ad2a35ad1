import Mathlib.Data.List.TakeWhile
import ReactiveMarkup.Style.Match

/-! # What selectors match

A selector is a row of tests and combinators. Which elements it hits is said on the row itself, from
its end to its start; static matching works on compounds and reports one way through them.
-/

namespace ReactiveMarkup.Style

open List Option Item

/-! ## Rows -/

def ItemKind.holds (e : StaticElement) : ItemKind → Bool
  | .type name => name == "*" || toLower name == toLower e.name
  | .id name => e.id == some name
  | .«class» name => e.classes.contains name
  | .«attribute» t => t.holds e
  | _ => false

def Item.relation? (i : Item) : Option Relation := relationOf i.kind

namespace Outline

variable {α : Type} {o : Outline} {rel? : α → Option Relation} {test : α → Nat → Prop}

def Passes (o : Outline) (i : Item) (k : Nat) : Prop :=
  ∃ e, o.elements[k]? = some e ∧ i.kind.holds e = true

variable (o rel? test) in
/-- A row that is read from its end hits a position: the tests at its beginning are passed there,
and what stands behind a combinator hits a candidate of it. Of several combinators in a row the
first read counts, and those with no test behind them count nothing. -/
inductive Hits : List α → Nat → Prop
  | start : rel? a = none → test a k → (∀ b ∈ row, (rel? b).isSome) → Hits (a :: row) k
  | also : rel? a = none → test a k → Hits row k → Hits (a :: row) k
  | across : rel? a = none → test a k → rel? b = some r → o.elements[k]? = some e →
    j ∈ candidates e r → Hits (row.dropWhile fun c => (rel? c).isSome) j → Hits (a :: b :: row) k

/-- A row hits a position. Combinators at its end count nothing. -/
def Matches (o : Outline) (relation? : α → Option Relation) (test : α → Nat → Prop) (row : List α)
    (k : Nat) : Prop :=
  Hits o relation? test (row.reverse.dropWhile fun c => (relation? c).isSome) k

variable {row : List α} {k : Nat}

theorem Hits.head_test (h : Hits o rel? test (a :: row) k) : rel? a = none ∧ test a k := by
  cases h with
  | start ha hk _ => exact ⟨ha, hk⟩
  | also ha hk _ => exact ⟨ha, hk⟩
  | across ha hk _ _ _ _ => exact ⟨ha, hk⟩

theorem not_hits_nil : ¬ Hits o rel? test [] k := fun h => nomatch h

theorem not_matches_of_boundaries (h : ∀ a ∈ row, (rel? a).isSome) :
    ¬ Matches o rel? test row k := by
  have hdrop : row.reverse.dropWhile (fun c => (rel? c).isSome) = [] :=
    dropWhile_eq_nil_iff.mpr fun a ha => h a (mem_reverse.mp ha)
  rw [Matches, hdrop]
  exact not_hits_nil

theorem hits_also_iff (ha : rel? a = none) (hb : rel? b = none) :
    Hits o rel? test (a :: b :: row) k ↔ test a k ∧ Hits o rel? test (b :: row) k := by
  constructor
  · intro h
    cases h with
    | start _ hk hrow =>
      have := hrow b mem_cons_self
      rw [hb] at this
      cases this
    | also _ hk h => exact ⟨hk, h⟩
    | across _ _ hr _ _ _ =>
      rw [hb] at hr
      cases hr
  · rintro ⟨hk, h⟩
    exact .also ha hk h

theorem hits_across_iff (ha : rel? a = none) (hb : rel? b = some r) :
    Hits o rel? test (a :: b :: row) k ↔ test a k ∧
      ((∀ c ∈ row, (rel? c).isSome) ∨ ∃ e j, o.elements[k]? = some e ∧ j ∈ candidates e r ∧
        Hits o rel? test (row.dropWhile fun c => (rel? c).isSome) j) := by
  constructor
  · intro h
    cases h with
    | start _ hk hrow => exact ⟨hk, Or.inl fun c hc => hrow c (.tail b hc)⟩
    | also _ _ h =>
      have := h.head_test.1
      rw [hb] at this
      cases this
    | across _ hk hr he hj h =>
      rw [hb] at hr
      cases hr
      exact ⟨hk, Or.inr ⟨_, _, he, hj, h⟩⟩
  · rintro ⟨hk, hall | ⟨e, j, he, hj, h⟩⟩
    · refine .start ha hk (forall_mem_cons.mpr ⟨?_, hall⟩)
      rw [hb]
      rfl
    · exact .across ha hk hb he hj h

theorem hits_single_iff (ha : rel? a = none) : Hits o rel? test [a] k ↔ test a k :=
  ⟨fun h => h.head_test.2, fun hk => .start ha hk (by simp)⟩

theorem not_hits_of_boundary (ha : (rel? a).isSome) : ¬ Hits o rel? test (a :: row) k := by
  intro h
  rw [h.head_test.1] at ha
  cases ha

theorem dropWhile_append_boundaries (hbs : ∀ b ∈ bs, (rel? b).isSome) :
    (row ++ bs).dropWhile (fun c => (rel? c).isSome) =
      row.dropWhile (fun c => (rel? c).isSome) ++
        if row.all fun c => (rel? c).isSome then [] else bs := by
  induction row with
  | nil => simpa [dropWhile_eq_nil_iff] using hbs
  | cons a row ih =>
    cases ha : (rel? a).isSome with
    | true => simp [ha, ih]
    | false => simp [ha]

theorem hits_append_iff {row bs : List α} {k : Nat} (hbs : ∀ b ∈ bs, (rel? b).isSome) :
    Hits o rel? test (row ++ bs) k ↔ Hits o rel? test row k := by
  match row with
  | [] =>
    cases bs with
    | nil => rfl
    | cons b bs => exact iff_of_false (not_hits_of_boundary (hbs b mem_cons_self)) not_hits_nil
  | a :: row =>
    cases ha : rel? a with
    | some r =>
      have ha : (rel? a).isSome := by rw [ha]; rfl
      exact iff_of_false (not_hits_of_boundary ha) (not_hits_of_boundary ha)
    | none =>
      match row with
      | [] =>
        rw [hits_single_iff ha]
        cases bs with
        | nil => exact hits_single_iff ha
        | cons b bs =>
          obtain ⟨r, hb⟩ := isSome_iff_exists.mp (hbs b mem_cons_self)
          rw [singleton_append, hits_across_iff ha hb]
          exact and_iff_left (Or.inl fun c hc => hbs c (.tail b hc))
      | b :: row =>
        cases hb : rel? b with
        | none =>
          rw [cons_append, cons_append, hits_also_iff ha hb, hits_also_iff ha hb,
            ← cons_append, hits_append_iff hbs]
        | some r =>
          rw [cons_append, cons_append, hits_across_iff ha hb, hits_across_iff ha hb,
            dropWhile_append_boundaries hbs]
          cases hall : row.all fun c => (rel? c).isSome with
          | true =>
            have hrow : ∀ c ∈ row, (rel? c).isSome := by simpa using hall
            have hboth : ∀ c ∈ row ++ bs, (rel? c).isSome := fun c hc =>
              (mem_append.mp hc).elim (hrow c) (hbs c)
            exact and_congr_right fun _ => iff_of_true (Or.inl hboth) (Or.inl hrow)
          | false =>
            have hlen : (row.dropWhile fun c => (rel? c).isSome).length ≤ row.length :=
              (dropWhile_sublist _).length_le
            have hrest : ∀ j, Hits o rel? test
                ((row.dropWhile fun c => (rel? c).isSome) ++ bs) j ↔
                Hits o rel? test (row.dropWhile fun c => (rel? c).isSome) j :=
              fun j => hits_append_iff hbs
            have hmem : (∀ c ∈ row ++ bs, (rel? c).isSome) ↔
                ∀ c ∈ row, (rel? c).isSome := by
              simp only [mem_append, or_imp, forall_and]
              exact and_iff_left hbs
            simp only [Bool.false_eq_true, if_false, hrest, hmem]
termination_by row.length

/-! ## Compounds -/

/-- Elements that pass a row of compounds, the last one first, and all satisfy `P`. -/
inductive Chain (o : Outline) (P : Nat → Prop) : List Compound → Nat → Prop
  | start {k : Nat} : o.elements[k]? = some e → c.holds e = true → P k → Chain o P [c] k
  | before {k : Nat} : o.elements[k]? = some e → c.holds e = true → P k →
    j ∈ candidates e c.relation → Chain o P cs j → Chain o P (c :: cs) k

variable {P : Nat → Prop}

theorem chain_cons_iff :
    Chain o P (c :: cs) k ↔ ∃ e, o.elements[k]? = some e ∧ c.holds e = true ∧ P k ∧
      (cs = [] ∨ ∃ j ∈ candidates e c.relation, Chain o P cs j) := by
  constructor
  · intro h
    cases h with
    | start he hc hk => exact ⟨_, he, hc, hk, Or.inl rfl⟩
    | before he hc hk hj h => exact ⟨_, he, hc, hk, Or.inr ⟨_, hj, h⟩⟩
  · rintro ⟨e, he, hc, hk, rfl | ⟨j, hj, h⟩⟩
    · exact .start he hc hk
    · exact .before he hc hk hj h

theorem not_chain_nil : ¬ Chain o P [] k := fun h => nomatch h

theorem Chain.mono (h : Chain o P cs k) (hq : ∀ j, P j → Q j) : Chain o Q cs k := by
  induction h with
  | start he hc hk => exact .start he hc (hq _ hk)
  | before he hc hk hj _ ih => exact .before he hc (hq _ hk) hj ih

theorem Chain.matchAt (h : Chain o P cs k) : ∃ path, o.matchAt cs k = some path := by
  induction h with
  | start he hc _ => exact ⟨[], by simp [Outline.matchAt, he, hc]⟩
  | @before e j cs c k he hc _ hj h ih =>
    obtain ⟨path, hpath⟩ := ih
    have hne : cs.isEmpty = false := by
      cases cs with
      | nil => exact absurd h not_chain_nil
      | cons _ _ => rfl
    have hsome : ((candidates e c.relation).findSome? fun k =>
        (o.matchAt cs k).map (· ++ [k])).isSome :=
      findSome?_isSome_iff.mpr ⟨j, hj, by simp [hpath]⟩
    obtain ⟨found, hfound⟩ := isSome_iff_exists.mp hsome
    exact ⟨found, by simp [Outline.matchAt, he, hc, hne, hfound]⟩

theorem chain_of_matchAt (h : o.matchAt cs k = some path) (hk : P k) (hpath : ∀ j ∈ path, P j) :
    Chain o P cs k := by
  induction cs generalizing k path with
  | nil => simp [Outline.matchAt] at h
  | cons c cs ih =>
    rw [Outline.matchAt] at h
    split at h
    · cases h
    · next e he =>
      split at h
      · next hc =>
        split at h
        · next hempty =>
          rw [isEmpty_iff.mp hempty]
          exact .start he hc hk
        · obtain ⟨j, hj, hfound⟩ := exists_of_findSome?_eq_some h
          obtain ⟨way, hway, rfl⟩ := map_eq_some_iff.mp hfound
          refine .before he hc hk hj (ih hway (hpath j (by simp)) fun i hi => ?_)
          exact hpath i (by simp [hi])
      · cases h

theorem matchAt_lt (h : o.matchAt cs k = some path) :
    k < o.elements.length ∧ ∀ j ∈ path, j < o.elements.length := by
  induction cs generalizing k path with
  | nil => simp [Outline.matchAt] at h
  | cons c cs ih =>
    rw [Outline.matchAt] at h
    split at h
    · cases h
    · next e he =>
      refine ⟨(List.getElem?_eq_some_iff.mp he).1, ?_⟩
      split at h
      · split at h
        · cases h
          exact nofun
        · obtain ⟨j, _, hfound⟩ := exists_of_findSome?_eq_some h
          obtain ⟨way, hway, rfl⟩ := map_eq_some_iff.mp hfound
          obtain ⟨hj, hrest⟩ := ih hway
          exact forall_mem_append.mpr ⟨hrest, forall_mem_singleton.mpr hj⟩
      · cases h

end Outline

/-! ## From items to compounds -/

theorem isSome_relation? (i : Item) : i.relation?.isSome = i.isBoundary := by
  unfold relation? isBoundary relationOf
  cases i.kind with
  | combinator c => cases c <;> rfl
  | _ => rfl

def Item.isType (i : Item) : Bool :=
  match i.kind with
  | .type _ => true
  | _ => false

def Item.isId (i : Item) : Bool :=
  match i.kind with
  | .id _ => true
  | _ => false

/-- No compound tests two types or two ids. -/
def SingleNames (s : Selector) : Prop :=
  ∀ c ∈ s.splitOnP Item.isBoundary, c.countP Item.isType ≤ 1 ∧ c.countP Item.isId ≤ 1

instance (s : Selector) : Decidable (SingleNames s) :=
  inferInstanceAs (Decidable (∀ c ∈ s.splitOnP Item.isBoundary, _))

theorem SingleNames.front (h : SingleNames (is ++ rest)) (hown : ∀ i ∈ is, i.isBoundary = false) :
    is.countP isType ≤ 1 ∧ is.countP isId ≤ 1 := by
  have hsplit : (is ++ rest).splitOnP isBoundary =
      (rest.splitOnP isBoundary).modifyHead (is ++ ·) := by
    clear h
    induction is with
    | nil =>
      rw [nil_append]
      cases rest.splitOnP isBoundary <;> rfl
    | cons i is ih =>
      rw [cons_append, splitOnP_cons_eq_if_modifyHead,
        if_neg (by simp [hown i mem_cons_self]), ih fun j hj => hown j (.tail i hj),
        modifyHead_modifyHead]
      rfl
  cases hrest : rest.splitOnP isBoundary with
  | nil => exact absurd hrest (splitOnP_ne_nil _ _)
  | cons piece pieces =>
    rw [SingleNames, hsplit, hrest, modifyHead_cons] at h
    obtain ⟨htypes, hids⟩ := h (is ++ piece) mem_cons_self
    rw [countP_append] at htypes hids
    exact ⟨Nat.le_of_add_right_le htypes, Nat.le_of_add_right_le hids⟩

/-- A compound tests what the items of a list test. -/
structure Compound.Collects (c : Compound) (is : Selector) : Prop where
  own : ∀ i ∈ is, i.isBoundary = false
  holds : ∀ e, c.holds e = is.all fun i => i.kind.holds e
  tag : c.tag.isSome → ∃ i ∈ is, i.isType = true
  id : c.id.isSome → ∃ i ∈ is, i.isId = true

theorem collects_nil : Compound.Collects { relation := r } [] where
  own := by simp
  holds := fun e => by simp [Compound.holds]
  tag := by simp
  id := by simp

theorem eq_none_of_countP {x : Option α} (hx : x.isSome → ∃ j ∈ is, p j = true)
    (h : (is ++ [i]).countP p ≤ 1) (hi : p i = true) : x = none := by
  rw [← not_isSome_iff_eq_none]
  intro hs
  obtain ⟨j, hj, hp⟩ := hx hs
  have hpos : 0 < is.countP p := countP_pos_iff.mpr ⟨j, hj, hp⟩
  rw [countP_append, countP_cons, if_pos hi] at h
  omega

theorem Compound.Collects.add {c c' : Compound} (h : c.Collects is) (ha : c.add i.kind = some c')
    (hown : ∀ j ∈ is ++ [i], j.isBoundary = false) (ht : (is ++ [i]).countP isType ≤ 1)
    (hd : (is ++ [i]).countP isId ≤ 1) : c'.Collects (is ++ [i]) ∧ c'.relation = c.relation := by
  have hall : ∀ e, (is ++ [i]).all (fun i => i.kind.holds e) = (c.holds e && i.kind.holds e) := by
    simp [h.holds]
  have htag : c.tag.isSome → ∃ j ∈ is ++ [i], j.isType = true := fun hs => by
    obtain ⟨j, hj, hp⟩ := h.tag hs
    exact ⟨j, mem_append_left _ hj, hp⟩
  have hid : c.id.isSome → ∃ j ∈ is ++ [i], j.isId = true := fun hs => by
    obtain ⟨j, hj, hp⟩ := h.id hs
    exact ⟨j, mem_append_left _ hj, hp⟩
  cases hk : i.kind with
  | type name =>
    have hi : i.isType = true := by simp [isType, hk]
    have hnone : c.tag = none := eq_none_of_countP h.tag ht hi
    rw [hk, Compound.add] at ha
    split at ha
    · cases ha
    · cases ha
      refine ⟨⟨hown, fun e => ?_, fun _ => ⟨i, by simp, hi⟩, hid⟩, rfl⟩
      rw [hall, hk]
      simp only [Compound.holds, hnone, ItemKind.holds, all_some, all_none,
        Bool.true_and]
      ac_rfl
  | id name =>
    have hi : i.isId = true := by simp [isId, hk]
    have hnone : c.id = none := eq_none_of_countP h.id hd hi
    rw [hk, Compound.add] at ha
    cases ha
    refine ⟨⟨hown, fun e => ?_, htag, fun _ => ⟨i, by simp, hi⟩⟩, rfl⟩
    rw [hall, hk]
    simp only [Compound.holds, hnone, ItemKind.holds, all_some, all_none, Bool.and_true]
    ac_rfl
  | «class» name | «attribute» t =>
    rw [hk, Compound.add] at ha
    cases ha
    refine ⟨⟨hown, fun e => ?_, htag, hid⟩, rfl⟩
    rw [hall, hk]
    simp only [Compound.holds, ItemKind.holds, all_append, all_cons, all_nil,
      Bool.and_true]
    ac_rfl
  | pseudoClass _ _ | pseudoElement _ _ | combinator _ | space => simp [hk, Compound.add] at ha

namespace Outline

variable {o : Outline} {P : Nat → Prop} {done : List Compound} {c : Compound}

def PassesAmong (o : Outline) (P : Nat → Prop) (i : Item) (k : Nat) : Prop := o.Passes i k ∧ P k

theorem passesAmong_true : o.PassesAmong (fun _ => True) = o.Passes := by
  funext i k
  simp [PassesAmong]

variable (o P done c) in
/-- What the items `seen` come to: the compounds `done`, the last one first, and the compound `c`
behind them, which has the tests `is`. -/
inductive Reading : Bool → Selector → Selector → Prop
  | opened : c.Collects is → (∃ i before, seen.reverse = i :: before ∧ i.relation? = none) →
    (∀ k, Hits o Item.relation? (o.PassesAmong P) seen.reverse k ↔ Chain o P (c :: done) k) →
    Reading true seen is
  | between : c.Collects [] →
    (seen = [] ∨ ∃ b before, seen.reverse = b :: before ∧ b.relation? = some c.relation) →
    (done = [] ↔ ∀ b ∈ seen, b.relation?.isSome) →
    (∀ k, Matches o Item.relation? (o.PassesAmong P) seen k ↔ Chain o P done k) →
    Reading false seen []

theorem hits_first_test (hi : i.relation? = none)
    (hlast : seen = [] ∨ ∃ b before, seen.reverse = b :: before ∧ b.relation? = some c.relation)
    (hdone : done = [] ↔ ∀ b ∈ seen, b.relation?.isSome)
    (hseen : ∀ k, Matches o relation? (o.PassesAmong P) seen k ↔ Chain o P done k) :
    Hits o relation? (o.PassesAmong P) (i :: seen.reverse) k ↔ o.PassesAmong P i k ∧
      (done = [] ∨ ∃ e j, o.elements[k]? = some e ∧ j ∈ candidates e c.relation ∧
        Chain o P done j) := by
  rcases hlast with rfl | ⟨b, before, hrev, hb⟩
  · have hdone : done = [] := hdone.mpr (by simp)
    constructor
    · intro h
      exact ⟨h.head_test.2, Or.inl hdone⟩
    · rintro ⟨hk, _⟩
      exact .start hi hk (by simp)
  · have hall : (∀ b ∈ seen, b.relation?.isSome) ↔ ∀ b ∈ before, b.relation?.isSome := by
      have hmem : ∀ x, x ∈ seen ↔ x = b ∨ x ∈ before := fun x => by
        rw [← mem_reverse, hrev, mem_cons]
      simp [hmem, hb]
    have hdrop : ∀ j, Hits o relation? (o.PassesAmong P)
        (before.dropWhile fun c => c.relation?.isSome) j ↔ Chain o P done j := by
      intro j
      rw [← hseen j, Matches, hrev, dropWhile_cons, if_pos (by simp [hb])]
    rw [hrev, hits_across_iff hi hb, hdone, hall]
    simp only [hdrop]

theorem dropWhile_of_test {row : Selector} (hi : i.relation? = none) :
    (i :: row).dropWhile (fun c => c.relation?.isSome) = i :: row := by
  rw [dropWhile_cons, if_neg (by simp [hi])]

theorem passes_compound (he : o.elements[k]? = some e) : o.Passes i k ↔ i.kind.holds e = true := by
  simp [Passes, he]

theorem Reading.close {i : Item} (h : Reading o P done c true seen is) (hi : i.relation? = some r) :
    Reading o P (c :: done) { relation := r } false (seen ++ [i]) [] := by
  cases h with
  | opened _ hlast hhits =>
    obtain ⟨a, before, hrev, ha⟩ := hlast
    refine .between collects_nil (Or.inr ⟨i, seen.reverse, by simp, hi⟩) ?_ fun k => ?_
    · have hmem : a ∈ seen := mem_reverse.mp (by rw [hrev]; exact mem_cons_self)
      refine ⟨fun hnil => absurd hnil (cons_ne_nil _ _), fun hall => ?_⟩
      have := hall a (mem_append_left _ hmem)
      rw [ha] at this
      cases this
    · have hdrop : (seen ++ [i]).reverse.dropWhile (fun c => c.relation?.isSome) = seen.reverse := by
        rw [reverse_append, reverse_singleton, singleton_append, dropWhile_cons,
          if_pos (by simp [hi]), hrev, dropWhile_of_test ha]
      rw [Matches, hdrop]
      exact hhits k

theorem Reading.skip (h : Reading o P done c false seen []) (hi : i.relation? = some r) :
    Reading o P done { c with relation := r } false (seen ++ [i]) [] := by
  cases h with
  | between hc _ hdone hhits =>
    refine .between ⟨hc.own, hc.holds, hc.tag, hc.id⟩ (Or.inr ⟨i, seen.reverse, by simp, hi⟩) ?_
      fun k => ?_
    · rw [hdone]
      simp [hi, or_imp, forall_and]
    · rw [← hhits k, Matches, Matches, reverse_append, reverse_singleton,
        singleton_append, dropWhile_cons, if_pos (by simp [hi])]

theorem Reading.test (h : Reading o P done c isOpen seen is) (hi : i.relation? = none)
    (hc' : c'.Collects (is ++ [i])) (hr : c'.relation = c.relation) :
    Reading o P done c' true (seen ++ [i]) (is ++ [i]) := by
  refine .opened hc' ⟨i, seen.reverse, by simp, hi⟩ fun k => ?_
  rw [reverse_append, reverse_singleton, singleton_append, chain_cons_iff]
  cases h with
  | opened hc hlast hhits =>
    obtain ⟨a, before, hrev, ha⟩ := hlast
    rw [hrev, hits_also_iff hi ha, ← hrev, hhits k, chain_cons_iff, PassesAmong]
    constructor
    · rintro ⟨⟨hik, _⟩, e, he, hce, hk, hbefore⟩
      refine ⟨e, he, ?_, hk, hr ▸ hbefore⟩
      rw [hc'.holds, all_append, ← hc.holds, hce]
      simpa using (passes_compound he).mp hik
    · rintro ⟨e, he, hce, hk, hbefore⟩
      rw [hc'.holds, all_append, ← hc.holds, Bool.and_eq_true] at hce
      exact ⟨⟨(passes_compound he).mpr (by simpa using hce.2), hk⟩, e, he, hce.1, hk, hr ▸ hbefore⟩
  | between hc hlast hdone hhits =>
    rw [hits_first_test hi hlast hdone hhits, PassesAmong]
    have hholds : ∀ e, c'.holds e = i.kind.holds e := fun e => by simp [hc'.holds]
    constructor
    · rintro ⟨⟨⟨e, he, hie⟩, hk⟩, hbefore⟩
      refine ⟨e, he, (hholds e).trans hie, hk, hbefore.imp_right ?_⟩
      rintro ⟨e', j, he', hj, hchain⟩
      rw [he] at he'
      cases he'
      exact ⟨j, hr ▸ hj, hchain⟩
    · rintro ⟨e, he, hie, hk, hbefore⟩
      refine ⟨⟨⟨e, he, (hholds e).symm.trans hie⟩, hk⟩, hbefore.imp_right ?_⟩
      rintro ⟨j, hj, hchain⟩
      exact ⟨e, j, he, hr ▸ hj, hchain⟩

theorem Reading.collects (h : Reading o P done c isOpen seen is) : c.Collects is := by
  cases h with
  | opened hc _ _ => exact hc
  | between hc _ _ _ => exact hc

theorem Reading.matches_seen {seen is : Selector} (h : Reading o P done c isOpen seen is)
    : Matches o relation? (o.PassesAmong P) seen k ↔
      Chain o P (if isOpen then c :: done else done) k := by
  cases h with
  | opened _ hlast hhits =>
    obtain ⟨a, before, hrev, ha⟩ := hlast
    rw [Matches, hrev, dropWhile_of_test ha, ← hrev]
    exact hhits k
  | between _ _ _ hhits => exact hhits k

theorem Reading.compoundsFrom {rest : Selector} (h : Reading o P done c isOpen seen is)
    (hs : SingleNames (is ++ rest)) (hc : compoundsFrom done c isOpen rest = some chain) :
    Matches o relation? (o.PassesAmong P) (seen ++ rest) k ↔ Chain o P chain k := by
  induction rest generalizing done c isOpen seen is with
  | nil =>
    rw [Style.compoundsFrom, some.injEq] at hc
    rw [append_nil, ← hc]
    exact h.matches_seen
  | cons i rest ih =>
    have hcol : c.Collects is := h.collects
    rw [append_cons]
    rw [Style.compoundsFrom] at hc
    cases hr : relationOf i.kind with
    | some r =>
      have hi : i.relation? = some r := hr
      have hbound : i.isBoundary = true := by rw [← isSome_relation?, hi]; rfl
      have hrest : SingleNames rest := by
        intro piece hpiece
        rw [SingleNames, splitOnP_append_cons_of_forall_mem hcol.own i hbound] at hs
        exact hs piece (.tail _ hpiece)
      cases isOpen with
      | true =>
        simp only [hr, if_true] at hc
        exact ih (h.close hi) hrest hc
      | false =>
        have hnil : is = [] := by cases h; rfl
        subst hnil
        simp only [hr, Bool.false_eq_true, if_false] at hc
        exact ih (h.skip hi) hrest hc
    | none =>
      have hi : i.relation? = none := hr
      have hbound : i.isBoundary = false := by rw [← isSome_relation?, hi]; rfl
      simp only [hr] at hc
      cases hadd : c.add i.kind with
      | none => simp [hadd] at hc
      | some c' =>
        simp only [hadd] at hc
        rw [append_cons] at hs
        have hown : ∀ j ∈ is ++ [i], j.isBoundary = false :=
          forall_mem_append.mpr ⟨hcol.own, forall_mem_singleton.mpr hbound⟩
        obtain ⟨htypes, hids⟩ := hs.front hown
        obtain ⟨hcol', hrel⟩ := hcol.add hadd hown htypes hids
        exact ih (h.test hi hcol' hrel) hs hc

theorem matches_iff_chain (hs : SingleNames s) (hc : compounds s = .ok chain) :
    Matches o relation? (o.PassesAmong P) s k ↔ Chain o P chain k := by
  have hfrom : compoundsFrom [] {} false s = some chain := by
    unfold compounds at hc
    split at hc
    · next heq =>
      cases hc
      exact heq
    · cases hc
  have hstart : Reading o P [] {} false [] [] :=
    .between collects_nil (Or.inl rfl) (by simp) fun k =>
      ⟨fun h => absurd h not_hits_nil, fun h => absurd h not_chain_nil⟩
  exact hstart.compoundsFrom hs hfrom

end Outline

end ReactiveMarkup.Style
