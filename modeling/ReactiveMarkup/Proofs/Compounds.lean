import Mathlib.Data.List.Forall2
import ReactiveMarkup.Style.Scope

/-! # Compounds of marked selectors

Marking inserts the token and changes nothing else. It acts on each compound alone: one gets the
token when it begins with a pseudo item of its own, or has a test of its own that no other test
follows at once.
-/

namespace ReactiveMarkup.Style

open List Item

/-! ## What marking inserts -/

/-- A row whose items are those of `sel'`, with the ones that scoping has inserted into `sel`
pointed out. -/
structure Inserts (t : String) (sel sel' : Selector) (row : List (Item × Bool)) : Prop where
  whole : row.map Prod.fst = sel'
  source : (row.filter (!·.2)).map Prod.fst = sel
  inserted : ∀ x ∈ row, x.2 = true → x.1 = { kind := .«class» t }

namespace Inserts

variable {t : String} {sel sel' : Selector} {row : List (Item × Bool)}

theorem keep (h : Inserts t sel sel' row) :
    Inserts t (i :: sel) (i :: sel') ((i, false) :: row) where
  whole := by rw [map_cons, h.whole]
  source := by simpa using h.source
  inserted := forall_mem_cons.mpr ⟨nofun, h.inserted⟩

theorem insert (h : Inserts t sel sel' row) :
    Inserts t sel ({ kind := .«class» t } :: sel') (({ kind := .«class» t }, true) :: row) where
  whole := by rw [map_cons, h.whole]
  source := by simpa using h.source
  inserted := forall_mem_cons.mpr ⟨fun _ => rfl, h.inserted⟩

end Inserts

/-- A name, id, class or attribute that does not stand inside `:global(…)`. -/
def Item.isOwnTest (i : Item) : Bool := !i.isGlobal && !i.isPseudo && !i.isBoundary

/-- Where marking inserts: before `i`, or behind it. -/
def Inviting (prev : Option Item) (i : Item) (rest : Selector) : Prop :=
  i.isGlobal = false ∧ i.isPseudo = true ∧ beginsCompound prev = true ∨
    i.isOwnTest = true ∧ rest.head?.all (fun r => r.isPseudo || r.isBoundary) = true

def Reached (prev : Option Item) (s : Selector) : Prop :=
  ∃ before i after, s = before ++ i :: after ∧ Inviting (before.getLast?.or prev) i after

section Reached

variable {prev : Option Item} {i : Item} {s : Selector}

theorem reached_cons : Reached prev (i :: s) ↔ Inviting prev i s ∨ Reached (some i) s := by
  have hlast : ∀ before : Selector,
      before.getLast?.or (some i) = (i :: before).getLast?.or prev := fun before => by
    rw [getLast?_cons]
    cases before.getLast? <;> rfl
  constructor
  · rintro ⟨before, j, after, heq, hj⟩
    cases before with
    | nil =>
      obtain ⟨rfl, rfl⟩ := cons.inj heq
      exact .inl hj
    | cons k before =>
      obtain ⟨rfl, rfl⟩ := cons.inj heq
      exact .inr ⟨before, j, after, rfl, hlast before ▸ hj⟩
  · rintro (hi | ⟨before, j, after, rfl, hj⟩)
    · exact ⟨[], i, s, rfl, hi⟩
    · exact ⟨i :: before, j, after, rfl, hlast before ▸ hj⟩

end Reached

variable {prev : Option Item}

theorem exists_inserts_mark (prev : Option Item) :
    ∃ row, Inserts t s (mark t prev s) row ∧ ((∃ x ∈ row, x.2 = true) ↔ Reached prev s) := by
  induction s generalizing prev with
  | nil => exact ⟨[], ⟨rfl, rfl, nofun⟩, by simp [Reached]⟩
  | cons i s ih =>
    obtain ⟨row, hrow, hreached⟩ := ih (some i)
    simp only [reached_cons, ← hreached, Inviting, isOwnTest]
    unfold mark
    split
    · exact ⟨_, hrow.keep, by grind [isPseudo, isBoundary]⟩
    · split
      · split
        · exact ⟨_, hrow.keep.insert, by simp_all⟩
        · exact ⟨_, hrow.keep, by grind⟩
      · split
        · exact ⟨_, hrow.insert.keep, by simp_all⟩
        · exact ⟨_, hrow.keep, by grind⟩

/-! ## Compounds -/

def compoundsOf (s : Selector) : List Selector := s.splitOnP Item.isBoundary

theorem not_isBoundary_of_mem (hc : c ∈ compoundsOf s) : ∀ i ∈ c, i.isBoundary = false := by
  unfold compoundsOf at hc
  induction s generalizing c with
  | nil => simp_all
  | cons j s ih =>
    rw [splitOnP_cons_eq_if_modifyHead] at hc
    obtain ⟨d, ds, hd⟩ := exists_cons_of_ne_nil (splitOnP_ne_nil isBoundary s)
    split at hc <;> grind [modifyHead_cons]

theorem mark_eq_of_beginsCompound (h : beginsCompound prev = beginsCompound prev') :
    mark t prev s = mark t prev' s := by
  cases s with
  | nil => rfl
  | cons i s => rw [mark, mark, h]

theorem all_head?_of_splitOnP {s d : Selector} (h : s.splitOnP isBoundary = d :: ds) :
    d.head?.all (fun r => r.isPseudo || r.isBoundary) =
      s.head?.all fun r => r.isPseudo || r.isBoundary := by
  cases s with
  | nil =>
    cases h
    rfl
  | cons i s =>
    obtain ⟨e, es, he⟩ := exists_cons_of_ne_nil (splitOnP_ne_nil isBoundary s)
    rw [splitOnP_cons_eq_if_modifyHead, he] at h
    split at h
    · next hi =>
      cases h
      simp [hi]
    · cases h
      rfl

theorem compoundsOf_mark {s c : Selector} {cs : List Selector}
    (h : compoundsOf s = c :: cs) :
    compoundsOf (mark t prev s) = mark t prev c :: cs.map (mark t none) := by
  unfold compoundsOf at h ⊢
  induction s generalizing prev c cs with
  | nil =>
    cases h
    rfl
  | cons i s ih =>
    obtain ⟨d, ds, hd⟩ := exists_cons_of_ne_nil (splitOnP_ne_nil isBoundary s)
    rw [splitOnP_cons_eq_if_modifyHead, hd] at h
    have hrest := @ih (some i) d ds hd
    split at h
    · next hi =>
      cases h
      have hnext : mark t (some i) d = mark t none d :=
        mark_eq_of_beginsCompound (by simpa [beginsCompound] using hi)
      have hkept : mark t prev (i :: s) = i :: mark t (some i) s := by simp [mark, hi]
      rw [hkept, splitOnP_cons_eq_if_modifyHead, if_pos hi, hrest, hnext]
      rfl
    · next hi =>
      cases h
      have htoken : ({ kind := .«class» t } : Item).isBoundary = false := rfl
      simp only [mark, all_head?_of_splitOnP hd]
      repeat' split
      all_goals simp [splitOnP_cons_eq_if_modifyHead, hi, hrest, htoken]

/-- A compound is reached that has a test of its own, unless such a test stands right before a
global one. -/
theorem reached_of_isOwnTest (hbound : ∀ i ∈ c, i.isBoundary = false)
    (hown : ∃ i ∈ c, i.isOwnTest = true)
    (hapart : c.IsChain fun i j => i.isOwnTest = true → j.isGlobal = true → j.isPseudo = true) :
    Reached prev c := by
  induction c generalizing prev with
  | nil => simp at hown
  | cons i c ih =>
    rw [reached_cons]
    by_cases hlater : ∃ j ∈ c, j.isOwnTest = true
    · exact .inr (ih (fun j hj => hbound j (.tail i hj)) hlater hapart.of_cons)
    · have hi : i.isOwnTest = true := by grind
      refine .inl (.inr ⟨hi, ?_⟩)
      cases c with
      | nil => rfl
      | cons j c =>
        have hother : ¬ j.isOwnTest = true := fun h => hlater ⟨j, .head c, h⟩
        by_contra hpseudo
        exact hother (by simp_all [isOwnTest])

theorem not_reached_of_isGlobal (h : ∀ i ∈ c, i.isGlobal = true) : ¬ Reached prev c := by
  rintro ⟨before, i, after, rfl, hi⟩
  have hglobal : i.isGlobal = true := h i (by simp)
  simp [Inviting, isOwnTest, hglobal] at hi

def CompoundScoped (t : String) (c c' : Selector) : Prop :=
  ∃ row, Inserts t c c' row ∧ ((∃ x ∈ row, x.2 = true) ↔ Reached none c) ∧
    ((∃ i ∈ c, i.isOwnTest = true) →
      (c.IsChain fun i j => i.isOwnTest = true → j.isGlobal = true → j.isPseudo = true) →
      ∃ x ∈ row, x.2 = true) ∧
    ((∀ i ∈ c, i.isGlobal = true) → ¬ ∃ x ∈ row, x.2 = true)

theorem compounds_mark (t : String) (s : Selector) :
    List.Forall₂ (CompoundScoped t) (compoundsOf s) (compoundsOf (mark t none s)) := by
  have hmark : compoundsOf (mark t none s) = (compoundsOf s).map (mark t none) := by
    obtain ⟨c, cs, h⟩ := exists_cons_of_ne_nil (splitOnP_ne_nil isBoundary s)
    rw [compoundsOf_mark h, show compoundsOf s = c :: cs from h, map_cons]
  rw [hmark, forall₂_map_right_iff, forall₂_same]
  intro c hc
  obtain ⟨row, hrow, hreached⟩ := exists_inserts_mark none
  refine ⟨row, hrow, hreached, fun hown hapart => ?_, fun hglobal => ?_⟩
  · exact hreached.mpr (reached_of_isOwnTest (not_isBoundary_of_mem hc) hown hapart)
  · exact mt hreached.mp (not_reached_of_isGlobal hglobal)

-- `.a:global(.b)` is left without a token, though its class `a` is its own.
example : mark "p1" none [{ kind := .«class» "a" }, { kind := .«class» "b", isGlobal := true }] =
    [{ kind := .«class» "a" }, { kind := .«class» "b", isGlobal := true }] := rfl

end ReactiveMarkup.Style
