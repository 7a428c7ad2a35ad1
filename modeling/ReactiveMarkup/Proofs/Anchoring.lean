import Mathlib.Data.Prod.Lex
import Mathlib.Data.List.TakeWhile
import ReactiveMarkup.Diagnostic

/-! # Positions in an excerpt and in its source

A position is moved from an excerpt to the source by the position at which the excerpt starts.
-/

namespace ReactiveMarkup

open List

namespace Text

variable {i j n : Nat} {cs front rest : List Char}

theorem takeBytes_zero : takeBytes cs 0 = [] := by
  cases cs with
  | nil => rfl
  | cons c cs => rw [takeBytes, if_neg (Nat.not_le.mpr c.utf8Size_pos)]

theorem takeBytes_append_add (front rest : List Char) (n : Nat) :
    takeBytes (front ++ rest) (byteLength front + n) = front ++ takeBytes rest n := by
  induction front with
  | nil => simp
  | cons c front ih =>
    rw [cons_append, takeBytes, byteLength_cons, if_pos (by omega), cons_append, ← ih]
    congr 2
    omega

theorem takeBytes_append (h : n ≤ byteLength front) :
    takeBytes (front ++ rest) n = takeBytes front n := by
  induction front generalizing n with
  | nil =>
    rw [byteLength_nil, Nat.le_zero] at h
    rw [h, takeBytes_zero, takeBytes_zero]
  | cons c front ih =>
    rw [byteLength_cons] at h
    rw [cons_append, takeBytes, takeBytes, ih (by omega)]

theorem takeBytes_mono (h : i ≤ j) : takeBytes cs i <+: takeBytes cs j := by
  induction cs generalizing i j with
  | nil => exact prefix_refl _
  | cons c cs ih =>
    rw [takeBytes, takeBytes]
    split
    · rw [if_pos (by omega), prefix_cons_inj]
      exact ih (by omega)
    · exact nil_prefix

theorem takeBytes_isPrefix (cs : List Char) (n : Nat) : takeBytes cs n <+: cs := by
  induction cs generalizing n with
  | nil => exact prefix_refl _
  | cons c cs ih =>
    rw [takeBytes]
    split
    · exact prefix_cons_inj c |>.mpr (ih _)
    · exact nil_prefix

theorem length_le_byteLength (cs : List Char) : cs.length ≤ byteLength cs := by
  induction cs with
  | nil => simp
  | cons c cs ih =>
    have hpos := c.utf8Size_pos
    simp
    omega

theorem findOffset_append
    (h : ∀ front' back', front ++ (needle ++ back) = front' ++ (needle ++ back') →
      front.length ≤ front'.length) :
    findOffset needle (front ++ (needle ++ back)) = some (byteLength front) := by
  induction front with
  | nil =>
    cases hcs : needle ++ back with
    | nil => simp_all [findOffset]
    | cons c cs =>
      have hprefix : needle <+: c :: cs := ⟨back, hcs⟩
      simp [findOffset, isPrefixOf_iff_prefix.mpr hprefix]
  | cons c front ih =>
    have hlater : ¬ needle.isPrefixOf (c :: (front ++ (needle ++ back))) = true := fun hprefix => by
      obtain ⟨back', hback⟩ := isPrefixOf_iff_prefix.mp hprefix
      have hle := h [] back' (by simpa using hback.symm)
      simp at hle
    rw [cons_append, findOffset, if_neg hlater, ih fun front' back' heq => ?_]
    · simp [Nat.add_comm]
    · simpa using h (c :: front') back' (by simpa using heq)

end Text

namespace Diagnostic

open Text

def place (d : Diagnostic) : ℕ ×ₗ ℕ := toLex (d.line, d.column)

theorem positionAfter_append (xs ys : List Char) : positionAfter (xs ++ ys) =
    if '\n' ∈ ys then ((positionAfter xs).1 + ys.count '\n', (positionAfter ys).2)
    else ((positionAfter xs).1, (positionAfter xs).2 + ys.length) := by
  simp only [positionAfter, count_append, reverse_append]
  split
  · next h =>
    have hstops : (ys.reverse.takeWhile (· != '\n')).length ≠ ys.reverse.length := fun heq => by
      have hall := takeWhile_eq_self_iff.mp ((List.takeWhile_prefix _).eq_of_length heq)
      simpa using hall '\n' (mem_reverse.mpr h)
    rw [takeWhile_append, if_neg hstops, Nat.add_right_comm]
  · next h =>
    have hall : ∀ c ∈ ys.reverse, (c != '\n') = true := by
      intro c hc
      have hne : c ≠ '\n' := fun heq => h (heq ▸ mem_reverse.mp hc)
      simpa using hne
    rw [takeWhile_append_of_pos hall, count_eq_zero_of_not_mem h]
    simp
    omega

theorem positionAfter_lt (hys : ys ≠ []) :
    toLex (positionAfter xs) < toLex (positionAfter (xs ++ ys)) := by
  have hlength := length_pos_iff.mpr hys
  rw [positionAfter_append, Prod.Lex.toLex_lt_toLex]
  split
  · next h => exact .inl (Nat.lt_add_of_pos_right (count_pos_iff.mpr h))
  · exact .inr ⟨rfl, Nat.lt_add_of_pos_right hlength⟩

theorem positionAfter_le (xs : List Char) :
    (positionAfter xs).1 + (positionAfter xs).2 ≤ xs.length + 2 := by
  have hsplit := takeWhile_append_dropWhile (p := (· != '\n')) (l := xs.reverse)
  have hnone : (xs.reverse.takeWhile (· != '\n')).count '\n' = 0 :=
    count_eq_zero_of_not_mem fun h => by simpa using mem_takeWhile_imp h
  have hrest := count_le_length (a := '\n') (l := xs.reverse.dropWhile (· != '\n'))
  have hcount : xs.count '\n' = (xs.reverse.dropWhile (· != '\n')).count '\n' := by
    rw [← count_reverse, ← Nat.zero_add (List.count _ (List.dropWhile ..)), ← hnone,
      ← count_append, hsplit]
  have hlength : xs.length = (xs.reverse.takeWhile (· != '\n')).length +
      (xs.reverse.dropWhile (· != '\n')).length := by
    rw [← length_append, hsplit, length_reverse]
  simp only [positionAfter]
  omega

/-- Later bytes have the same character or a later position. -/
theorem place_locate (e : Diagnostic) (source : String) (h : i ≤ j) :
    takeBytes source.toList i = takeBytes source.toList j ∨
      (e.locate source i).place < (e.locate source j).place := by
  obtain ⟨more, hmore⟩ := @takeBytes_mono i j source.toList h
  by_cases hnil : more = []
  · exact .inl (by rw [← hmore, hnil, append_nil])
  · refine .inr ?_
    rw [place, locate, place, locate, ← hmore]
    exact positionAfter_lt hnil

theorem anchor_locate {e : Diagnostic} (hcode : e.code ≠ .markup)
    (hdetails : e.details = some excerpt) (hexcerpt : excerpt ≠ "")
    (hsource : source.toList = front ++ (excerpt.toList ++ back))
    (hfirst : ∀ front' back', source.toList = front' ++ (excerpt.toList ++ back') →
      front.length ≤ front'.length) (hoffset : offset ≤ byteLength excerpt.toList) :
    (e.locate excerpt offset).anchor source = e.locate source (byteLength front + offset) := by
  have hfind : findOffset excerpt.toList source.toList = some (byteLength front) := by
    rw [hsource]
    exact findOffset_append (hsource ▸ hfirst)
  have hfront : takeBytes source.toList (byteLength front) = front := by
    have h := takeBytes_append_add front (excerpt.toList ++ back) 0
    rwa [Nat.add_zero, takeBytes_zero, append_nil, ← hsource] at h
  have hboth : takeBytes source.toList (byteLength front + offset) =
      front ++ takeBytes excerpt.toList offset := by
    rw [hsource, takeBytes_append_add, takeBytes_append hoffset]
  simp only [locate, anchor, hdetails, hfind, hfront, hboth, hcode, positionAfter_append]
  rw [if_neg (by simp), if_neg (by simpa using hexcerpt)]
  generalize takeBytes excerpt.toList offset = inner
  have hline : (positionAfter inner).1 = inner.count '\n' + 1 := rfl
  by_cases hnewline : '\n' ∈ inner
  · have hpos := count_pos_iff.mpr hnewline
    rw [if_neg (by omega), if_neg (by omega), if_pos hnewline, hline, Nat.add_sub_cancel]
  · have hinner := positionAfter_append [] inner
    have hempty : positionAfter [] = (1, 1) := rfl
    rw [nil_append, if_neg hnewline, hempty] at hinner
    simp [hinner, hnewline]

/-- To locate an error in an excerpt, at its first place in the source, and anchor it is to locate
it in the source. Line and column grow with the bytes and tell the characters of a source apart. -/
theorem anchoring_composes_locations (source : String) (e : Diagnostic) :
    (∀ excerpt front back offset, e.code ≠ .markup → e.details = some excerpt → excerpt ≠ "" →
      source.toList = front ++ (excerpt.toList ++ back) →
      (∀ front' back', source.toList = front' ++ (excerpt.toList ++ back') →
        front.length ≤ front'.length) →
      offset ≤ byteLength excerpt.toList →
      (e.locate excerpt offset).anchor source = e.locate source (byteLength front + offset)) ∧
    (∀ i j, i ≤ j → (e.locate source i).place ≤ (e.locate source j).place) ∧
    (∀ i j, (e.locate source i).place = (e.locate source j).place ↔
      takeBytes source.toList i = takeBytes source.toList j) ∧
    ∀ i, (e.locate source i).line + (e.locate source i).column ≤ byteLength source.toList + 2 := by
  refine ⟨fun _ _ _ _ => anchor_locate, fun i j h => ?_, fun i j => ⟨fun h => ?_, fun h => ?_⟩,
    fun i => ?_⟩
  · rcases place_locate e source h with h | h
    · rw [place, locate, place, locate, h]
    · exact h.le
  · rcases Nat.le_total i j with hle | hle
    · exact (place_locate e source hle).resolve_right h.not_lt
    · exact ((place_locate e source hle).resolve_right h.not_gt).symm
  · rw [place, locate, place, locate, h]
  · calc (e.locate source i).line + (e.locate source i).column
        ≤ (takeBytes source.toList i).length + 2 := positionAfter_le _
      _ ≤ source.toList.length + 2 := Nat.add_le_add_right (takeBytes_isPrefix ..).length_le 2
      _ ≤ byteLength source.toList + 2 := Nat.add_le_add_right (length_le_byteLength _) 2

/-- A byte inside a character, on the second line of an excerpt. -/
theorem anchoring_composes_locations_accent :
    (({ code := .style, message := "", details := some "b\né" } : Diagnostic).locate "b\né" 3).anchor
        "a\nb\né" =
      ({ code := .style, message := "", details := some "b\né" } : Diagnostic).locate "a\nb\né" 5 := by
  have hfirst : ∀ front' back' : List Char, ['a', '\n', 'b', '\n', 'é'] =
      front' ++ (['b', '\n', 'é'] ++ back') → 2 ≤ front'.length := by
    rintro (_ | ⟨c, _ | ⟨d, front'⟩⟩) back' h <;> simp_all
  exact (anchoring_composes_locations "a\nb\né" _).1 "b\né" ['a', '\n'] [] 3 (by decide) rfl
    (by decide) rfl hfirst (by decide)

end Diagnostic

end ReactiveMarkup
