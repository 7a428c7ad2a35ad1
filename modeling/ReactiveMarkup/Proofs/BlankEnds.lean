import Mathlib.Data.List.DropRight
import ReactiveMarkup.Markup.Compact

/-! # Blanks at the ends of a text

A text is some blanks, a core that neither begins nor ends with a blank, and more blanks. Tidying
keeps the core and makes one space of the blanks on either side.
-/

namespace ReactiveMarkup.Text

open List

variable {cs core front back : List Char}

def leading (cs : List Char) : List Char := cs.takeWhile isBlank

def trailing (cs : List Char) : List Char := cs.rtakeWhile isBlank

theorem trimChars_eq : trimChars cs = (cs.dropWhile isBlank).rdropWhile isBlank := rfl

theorem trimChars_eq_nil_iff : trimChars cs = [] ↔ ∀ c ∈ cs, isBlank c = true := by
  rw [trimChars_eq, rdropWhile_eq_nil_iff, ← dropWhile_eq_nil_iff,
    dropWhile_idempotent, dropWhile_eq_nil_iff]

structure Bare (core : List Char) : Prop where
  some : core ≠ []
  first : ∀ c ∈ core.head?, isBlank c = false
  last : ∀ c ∈ core.getLast?, isBlank c = false

theorem bare_trimChars (h : trimChars cs ≠ []) : Bare (trimChars cs) := by
  refine ⟨h, fun c hc => ?_, fun c hc => ?_⟩
  · -- trimming the end leaves the beginning as it is
    obtain ⟨tail, htail⟩ : trimChars cs <+: cs.dropWhile isBlank := rdropWhile_prefix isBlank _
    have hne : cs.dropWhile isBlank ≠ [] := by
      rw [← htail]
      exact append_ne_nil_of_left_ne_nil h _
    have hhead : (cs.dropWhile isBlank).head? = .some c := by
      rw [← htail, head?_append, hc]
      rfl
    rw [head?_eq_some_head hne] at hhead
    rw [← Option.some.inj hhead]
    exact head_dropWhile_not isBlank hne
  · have hlast := rdropWhile_last_not isBlank _ h
    rw [getLast?_eq_some_getLast h] at hc
    obtain rfl := Option.some.inj hc
    exact Bool.eq_false_iff.mpr hlast

section

variable (hfront : ∀ c ∈ front, isBlank c = true) (hhead : ∀ c ∈ cs.head?, isBlank c = false)
include hfront hhead

theorem takeWhile_blanks : (front ++ cs).takeWhile isBlank = front := by
  rw [takeWhile_append_of_pos hfront]
  cases cs with
  | nil => simp
  | cons c cs => simp [hhead c rfl]

theorem dropWhile_blanks : (front ++ cs).dropWhile isBlank = cs := by
  rw [dropWhile_append_of_pos hfront]
  cases cs with
  | nil => rfl
  | cons c cs => simp [hhead c rfl]

end

namespace Bare

theorem head?_append (h : Bare core) : ∀ c ∈ (core ++ back).head?, isBlank c = false := by
  rw [head?_append_of_ne_nil _ h.some]
  exact h.first

theorem reverse (h : Bare core) : Bare core.reverse where
  some := by simpa using h.some
  first := by simpa using h.last
  last := by simpa using h.first

theorem leading_pad (h : Bare core) (hfront : ∀ c ∈ front, isBlank c = true) :
    leading (front ++ (core ++ back)) = front :=
  takeWhile_blanks hfront h.head?_append

theorem trailing_pad (h : Bare core) (hback : ∀ c ∈ back, isBlank c = true) :
    trailing (front ++ (core ++ back)) = back := by
  have hrev : (front ++ (core ++ back)).reverse = back.reverse ++ (core.reverse ++ front.reverse) := by
    simp
  rw [trailing, List.rtakeWhile, hrev, takeWhile_blanks (by simpa using hback)
    h.reverse.head?_append, reverse_reverse]

theorem trim_pad (h : Bare core) (hfront : ∀ c ∈ front, isBlank c = true)
    (hback : ∀ c ∈ back, isBlank c = true) : trimChars (front ++ (core ++ back)) = core := by
  have hrev : (core ++ back).reverse = back.reverse ++ core.reverse := by simp
  rw [trimChars_eq, dropWhile_blanks hfront h.head?_append, List.rdropWhile, hrev,
    dropWhile_blanks (by simpa using hback) h.reverse.first, reverse_reverse]

end Bare

end ReactiveMarkup.Text

namespace ReactiveMarkup.Markup

open Text (leading trailing trimChars isBlank Bare)

def oneSpace (blanks : List Char) : List Char := if blanks = [] then [] else [' ']

theorem blank_oneSpace : ∀ c ∈ oneSpace blanks, isBlank c = true := by
  rw [oneSpace]
  split <;> simp [isBlank]

theorem oneSpace_oneSpace : oneSpace (oneSpace blanks) = oneSpace blanks := by
  simp only [oneSpace, ite_eq_left_iff, List.cons_ne_nil, imp_false, Decidable.not_not]

theorem front_eq : (if cs.head?.any isBlank then [' '] else []) = oneSpace (leading cs) := by
  rw [oneSpace, leading]
  cases cs with
  | nil => rfl
  | cons c cs => cases hc : isBlank c <;> simp [hc]

theorem back_eq : (if cs.getLast?.any isBlank then [' '] else []) = oneSpace (trailing cs) := by
  rw [← List.head?_reverse, front_eq, oneSpace, oneSpace, leading, trailing, List.rtakeWhile]
  simp only [List.reverse_eq_nil_iff]

theorem allBlank_iff : Text.allBlank v = true ↔ trimChars v.toList = [] := by
  rw [Text.trimChars_eq_nil_iff, Text.allBlank, List.all_eq_true]

theorem tidyText_of_blank (h : trimChars v.toList = []) :
    (tidyText v).toList = oneSpace v.toList := by
  rw [tidyText, oneSpace]
  by_cases hv : v.toList = [] <;> simp [hv, h]

theorem tidyText_of_core (h : trimChars v.toList ≠ []) : (tidyText v).toList =
      oneSpace (leading v.toList) ++ (trimChars v.toList ++ oneSpace (trailing v.toList)) := by
  have hne : v.toList ≠ [] := by
    intro hnil
    rw [hnil] at h
    exact h rfl
  rw [tidyText]
  simp only [List.isEmpty_iff, hne, h, if_false, String.toList_ofList, front_eq, back_eq,
    List.append_assoc]

theorem trim_tidyText : trimChars (tidyText v).toList = trimChars v.toList := by
  by_cases h : trimChars v.toList = []
  · rw [tidyText_of_blank h, h, Text.trimChars_eq_nil_iff]
    exact blank_oneSpace
  · rw [tidyText_of_core h]
    exact (Text.bare_trimChars h).trim_pad blank_oneSpace blank_oneSpace

theorem leading_tidyText (h : trimChars v.toList ≠ []) :
    leading (tidyText v).toList = oneSpace (leading v.toList) := by
  rw [tidyText_of_core h]
  exact (Text.bare_trimChars h).leading_pad blank_oneSpace

theorem trailing_tidyText (h : trimChars v.toList ≠ []) :
    trailing (tidyText v).toList = oneSpace (trailing v.toList) := by
  rw [tidyText_of_core h]
  exact (Text.bare_trimChars h).trailing_pad blank_oneSpace

theorem tidyText_tidyText : tidyText (tidyText v) = tidyText v := by
  rw [← String.toList_inj]
  by_cases h : trimChars v.toList = []
  · rw [tidyText_of_blank (trim_tidyText.trans h), tidyText_of_blank h, oneSpace_oneSpace]
  · have h' : trimChars (tidyText v).toList ≠ [] := by rwa [trim_tidyText]
    rw [tidyText_of_core h', leading_tidyText h, trailing_tidyText h, trim_tidyText,
      oneSpace_oneSpace, oneSpace_oneSpace, tidyText_of_core h]

end ReactiveMarkup.Markup
