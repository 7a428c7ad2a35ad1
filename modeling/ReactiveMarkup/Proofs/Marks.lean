import ReactiveMarkup.Proofs.Matching
import ReactiveMarkup.Style.Scope

/-! # Marked selectors

A selector without pseudo items is its own clean form. Marking it puts the scope token into each of
its compounds, so that it hits what it hit before among the elements that have the token.
-/

namespace ReactiveMarkup.Style

open List Outline

/-! ## Selectors with items of their own only -/

def Own (s : Selector) : Prop := ∀ i ∈ s, i.isPseudo = false ∧ i.isGlobal = false

instance (s : Selector) : Decidable (Own s) :=
  inferInstanceAs (Decidable (∀ i ∈ s, i.isPseudo = false ∧ i.isGlobal = false))

theorem own_cons : Own (i :: s) ↔ (i.isPseudo = false ∧ i.isGlobal = false) ∧ Own s :=
  forall_mem_cons

theorem openGlobals_own (h : Own s) : openGlobals s = .ok s := by
  induction s with
  | nil => rfl
  | cons i s ih =>
    obtain ⟨⟨hi, _⟩, hs⟩ := own_cons.mp h
    rw [openGlobals, ih hs]
    split
    · next hk => simp [Item.isPseudo, hk] at hi
    · next hk => simp [Item.isPseudo, hk] at hi
    · rfl

theorem cleanItems_own {prev : Option Item} (h : Own s) : cleanItems prev s = s := by
  induction s generalizing prev with
  | nil => rfl
  | cons i s ih =>
    obtain ⟨⟨hi, hg⟩, hs⟩ := own_cons.mp h
    simp [cleanItems, hi, hg, ih hs]

theorem isBoundary_of_isSpaceItem (h : isSpaceItem i = true) : i.isBoundary = true := by
  have hk : i.kind = .space := by simpa [isSpaceItem] using h
  simp [Item.isBoundary, hk]

theorem cleanForm_own (h : Own s) : ∃ lead trail : Selector,
    s = lead ++ cleanForm s ++ trail ∧ (∀ i ∈ lead, i.isBoundary = true) ∧
      ∀ i ∈ trail, i.isBoundary = true := by
  have hspaces : ∀ l : Selector, ∀ i ∈ l.takeWhile isSpaceItem, i.isBoundary = true := fun l i hi =>
    isBoundary_of_isSpaceItem (mem_takeWhile_imp hi)
  refine ⟨s.takeWhile isSpaceItem, ((s.dropWhile isSpaceItem).reverse.takeWhile isSpaceItem).reverse,
    ?_, hspaces s, fun i hi => hspaces _ i (mem_reverse.mp hi)⟩
  rw [cleanForm, cleanItems_own h, append_assoc, ← reverse_append,
    takeWhile_append_dropWhile, reverse_reverse, takeWhile_append_dropWhile]

theorem matches_cleanForm (h : Own s) :
    Matches o Item.relation? test (cleanForm s) k ↔ Matches o Item.relation? test s k := by
  obtain ⟨lead, trail, hs, hlead, htrail⟩ := cleanForm_own h
  have hbound : ∀ {l : Selector}, (∀ i ∈ l, i.isBoundary = true) →
      ∀ i ∈ l.reverse, i.relation?.isSome := fun hl i hi => by
    rw [isSome_relation?]
    exact hl i (mem_reverse.mp hi)
  generalize cleanForm s = core at hs ⊢
  subst hs
  rw [Matches, Matches, reverse_append, reverse_append,
    dropWhile_append_of_pos (hbound htrail), dropWhile_append_boundaries (hbound hlead)]
  split
  · rw [append_nil]
  · exact (hits_append_iff (hbound hlead)).symm

theorem singleNames_cleanForm (h : Own s) (hs : SingleNames s) : SingleNames (cleanForm s) := by
  obtain ⟨lead, trail, heq, hlead, htrail⟩ := cleanForm_own h
  generalize cleanForm s = core at heq
  subst heq
  clear h
  have hrest : SingleNames (core ++ trail) := by
    induction lead with
    | nil => exact hs
    | cons b lead ih =>
      refine ih (fun i hi => hlead i (.tail b hi)) ?_
      intro c hc
      refine hs c ?_
      rw [cons_append, cons_append, splitOnP_cons_eq_if_modifyHead,
        if_pos (hlead b mem_cons_self)]
      exact .tail _ hc
  cases trail with
  | nil => simpa using hrest
  | cons b trail =>
    intro c hc
    refine hrest c ?_
    rw [splitOnP_append_cons _ _ (htrail b mem_cons_self)]
    exact mem_append_left _ hc

/-! ## Marks -/

/-- A row that is read from its end, with an inserted item before the first test of each compound.
`inside` says that the compound in hand has its mark. -/
def markBack (token : Item) : Bool → Selector → List (Item × Bool)
  | _, [] => []
  | inside, i :: rest =>
    if i.isBoundary then (i, false) :: markBack token false rest
    else if inside then (i, false) :: markBack token true rest
    else (token, true) :: (i, false) :: markBack token true rest

section Marks

variable {token : Item} {inside : Bool}

def insideAfter (inside : Bool) (s : Selector) : Bool :=
  s.getLast?.elim inside fun i => !i.isBoundary

theorem insideAfter_cons : insideAfter inside (i :: s) = insideAfter (!i.isBoundary) s := by
  unfold insideAfter
  rw [getLast?_cons]
  cases s.getLast? <;> rfl

theorem markBack_append : markBack token inside (s ++ s') =
    markBack token inside s ++ markBack token (insideAfter inside s) s' := by
  induction s generalizing inside with
  | nil => rfl
  | cons i s ih =>
    rw [insideAfter_cons, cons_append, markBack, markBack]
    cases hi : i.isBoundary with
    | true => simp [ih]
    | false => cases inside <;> simp [ih]

theorem mark_own {prev : Option Item} (h : Own s) :
    mark t prev s = ((markBack { kind := .«class» t } false s.reverse).map Prod.fst).reverse := by
  induction s generalizing prev with
  | nil => rfl
  | cons i s ih =>
    obtain ⟨⟨hi, hg⟩, hs⟩ := own_cons.mp h
    have hhead : (s.head?.all fun r => r.isPseudo || r.isBoundary) = !insideAfter false s.reverse := by
      unfold insideAfter
      cases s with
      | nil => rfl
      | cons r s => simp [(own_cons.mp hs).1.1]
    rw [mark, ih hs, hi, hg, hhead, reverse_cons, markBack_append]
    cases hb : i.isBoundary with
    | true => simp [markBack, hb]
    | false => cases insideAfter false s.reverse <;> simp [markBack, hb]

theorem map_markBack_filter : ((markBack token inside s).filter (!·.2)).map Prod.fst = s := by
  induction s generalizing inside with
  | nil => rfl
  | cons i s ih =>
    rw [markBack]
    split
    · simp [ih]
    · split <;> simp [ih]

theorem eq_of_mem_markBack : ∀ x ∈ markBack token inside s, x.2 = true → x.1 = token := by
  induction s generalizing inside with
  | nil => nofun
  | cons i s ih =>
    rw [markBack]
    split
    · exact forall_mem_cons.mpr ⟨nofun, ih⟩
    · split
      · exact forall_mem_cons.mpr ⟨nofun, ih⟩
      · exact forall_mem_cons.mpr ⟨fun _ => rfl, forall_mem_cons.mpr ⟨nofun, ih⟩⟩

theorem boundaries_markBack :
    (∀ x ∈ markBack token inside s, x.1.relation?.isSome) ↔ ∀ i ∈ s, i.relation?.isSome := by
  induction s generalizing inside with
  | nil => exact iff_of_true nofun nofun
  | cons i s ih =>
    rw [markBack]
    simp only [forall_mem_cons]
    split
    · rw [forall_mem_cons, ih]
    · next hi =>
      have hi : ¬ i.relation?.isSome := by rwa [isSome_relation?]
      split
      · rw [forall_mem_cons, ih]
      · exact iff_of_false (fun h => hi (h (i, false) (by simp))) fun h => hi h.1

theorem dropWhile_markBack (ht : token.relation? = none) :
    (markBack token false s).dropWhile (fun x => x.1.relation?.isSome) =
      markBack token false (s.dropWhile fun i => i.relation?.isSome) := by
  induction s with
  | nil => rfl
  | cons i s ih =>
    have hi := isSome_relation? i
    cases hb : i.isBoundary with
    | true => simp [markBack, hi, hb, ih]
    | false => simp [markBack, hi, hb, ht]

end Marks

/-- The tests of a marked row: an inserted item tests `T`. -/
def MarkedTest (o : Outline) (T : Nat → Prop) (x : Item × Bool) (k : Nat) : Prop :=
  if x.2 then T k else o.Passes x.1 k

theorem hits_markBack (ht : token.relation? = none) (s : Selector) (k : Nat) :
    Hits o (fun x => x.1.relation?) (MarkedTest o T) (markBack token false s) k ↔
      Hits o Item.relation? (o.PassesAmong T) s k := by
  match s with
  | [] => exact iff_of_false not_hits_nil not_hits_nil
  | i :: s =>
    cases hi : i.relation? with
    | some r =>
      have hsome : i.relation?.isSome := by rw [hi]; rfl
      have hb : i.isBoundary = true := by rwa [← isSome_relation?]
      rw [markBack, if_pos hb]
      exact iff_of_false (not_hits_of_boundary hsome) (not_hits_of_boundary hsome)
    | none =>
      have hb : i.isBoundary = false := by rw [← isSome_relation?, hi]; rfl
      have hmark : markBack token false (i :: s) =
          (token, true) :: (i, false) :: markBack token true s := by simp [markBack, hb]
      rw [hmark, hits_also_iff (a := (token, true)) ht hi]
      match s with
      | [] =>
        rw [markBack, hits_single_iff (a := (i, false)) hi, hits_single_iff hi]
        exact and_comm
      | j :: s =>
        cases hj : j.relation? with
        | none =>
          have hjb : j.isBoundary = false := by rw [← isSome_relation?, hj]; rfl
          have hmark : markBack token true (j :: s) = (j, false) :: markBack token true s := by
            simp [markBack, hjb]
          have hmark' : markBack token false (j :: s) =
              (token, true) :: (j, false) :: markBack token true s := by simp [markBack, hjb]
          have ih := hits_markBack (T := T) (o := o) ht (j :: s) k
          rw [hmark', hits_also_iff (a := (token, true)) ht hj] at ih
          rw [hmark, hits_also_iff (a := (i, false)) hi hj, hits_also_iff hi hj, ← ih]
          constructor
          · rintro ⟨hmarked, hik, hrest⟩
            exact ⟨⟨hik, hmarked⟩, hmarked, hrest⟩
          · rintro ⟨⟨hik, _⟩, hmarked, hrest⟩
            exact ⟨hmarked, hik, hrest⟩
        | some r =>
          have hjb : j.isBoundary = true := by rw [← isSome_relation?, hj]; rfl
          have hmark : markBack token true (j :: s) = (j, false) :: markBack token false s := by
            simp [markBack, hjb]
          have hlen : (s.dropWhile fun i => i.relation?.isSome).length ≤ s.length :=
            (dropWhile_sublist _).length_le
          rw [hmark, hits_across_iff (a := (i, false)) hi hj,
            hits_across_iff hi hj, boundaries_markBack, dropWhile_markBack ht]
          have ih : ∀ n, Hits o (fun x => x.1.relation?) (MarkedTest o T)
              (markBack token false (s.dropWhile fun i => i.relation?.isSome)) n ↔
                Hits o Item.relation? (o.PassesAmong T) (s.dropWhile fun i => i.relation?.isSome) n :=
            fun n => hits_markBack ht _ n
          simp only [ih]
          constructor
          · rintro ⟨hmarked, hik, hbefore⟩
            exact ⟨⟨hik, hmarked⟩, hbefore⟩
          · rintro ⟨⟨hik, hmarked⟩, hbefore⟩
            exact ⟨hmarked, hik, hbefore⟩
termination_by s.length

theorem matches_markBack (ht : token.relation? = none) :
    Matches o (fun x => x.1.relation?) (MarkedTest o T) (markBack token false s.reverse).reverse k ↔
      Matches o Item.relation? (o.PassesAmong T) s k := by
  rw [Matches, Matches, reverse_reverse, dropWhile_markBack ht]
  exact hits_markBack ht _ k

end ReactiveMarkup.Style
