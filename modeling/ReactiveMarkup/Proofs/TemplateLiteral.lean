import ReactiveMarkup.Interpolation

/-! # Text inside template literals

A template literal ends at the first backquote that no backslash has taken, and a dollar sign before
an opening brace begins a substitution in it.
-/

namespace ReactiveMarkup.Interpolation

open Escape

/-- How the inside of a template literal comes to an end; the last two with what follows. -/
inductive LiteralEnd where
  | complete
  /-- There is no character for the last backslash to take. -/
  | midEscape
  | closed (rest : List Char)
  | substitution (rest : List Char)
  deriving DecidableEq, Repr

/-- What a character stands for that a backslash has taken. -/
def taken (c : Char) : Char := if c = 'n' then '\n' else c

/-- The text of the inside of a template literal, up to its end. -/
def readLiteral : List Char → List Char × LiteralEnd
  | [] => ([], .complete)
  | c :: cs =>
    if c = '\\' then
      match cs with
      | [] => ([], .midEscape)
      | d :: cs => (taken d :: (readLiteral cs).1, (readLiteral cs).2)
    else if c = backquote then ([], .closed cs)
    else if c = '$' ∧ cs.head? = some '\x7b' then ([], .substitution cs)
    else (c :: (readLiteral cs).1, (readLiteral cs).2)

section Reading

variable {c d : Char} {cs : List Char}

theorem readLiteral_taken : readLiteral ('\\' :: d :: cs) =
    (taken d :: (readLiteral cs).1, (readLiteral cs).2) := by
  exact if_pos rfl

theorem readLiteral_closed : readLiteral (backquote :: rest) = ([], .closed rest) := by
  rw [readLiteral.eq_def]
  exact (if_neg (by decide)).trans (if_pos rfl)

theorem readLiteral_plain (hs : c ≠ '\\') (hq : c ≠ backquote)
    (hd : c = '$' → cs.head? ≠ some '\x7b') :
    readLiteral (c :: cs) = (c :: (readLiteral cs).1, (readLiteral cs).2) := by
  rw [readLiteral.eq_def]
  exact (if_neg hs).trans ((if_neg hq).trans (if_neg fun h => hd h.1 h.2))

end Reading

/-! ## Escaped text -/

/-- What stands for one character of a text that goes on with `rest`. -/
def Escape.one (e : Escape) (c : Char) (rest : List Char) : List Char :=
  if c = '\\' ∨ c = backquote ∨ c = '$' ∧ rest.head? = some '\x7b' then ['\\', c]
  else if c = '\n' ∧ e = .inline then ['\\', 'n']
  else [c]

theorem Escape.chars_cons {e : Escape} {c : Char} {rest : List Char} :
    e.chars (c :: rest) = e.one c rest ++ e.chars rest := by
  rw [chars, one]
  simp only [beq_iff_eq, Bool.and_eq_true]
  by_cases hs : c = '\\'
  · rw [if_pos hs, if_pos (.inl hs), hs]
    rfl
  by_cases hq : c = backquote
  · rw [if_neg hs, if_pos hq, if_pos (.inr (.inl hq)), hq]
    rfl
  by_cases hd : c = '$' ∧ rest.head? = some '\x7b'
  · rw [if_neg hs, if_neg hq, if_pos hd, if_pos (.inr (.inr hd)), hd.1]
    rfl
  have hplain : ¬ (c = '\\' ∨ c = backquote ∨ c = '$' ∧ rest.head? = some '\x7b') := by
    rintro (h | h | h)
    · exact hs h
    · exact hq h
    · exact hd h
  rw [if_neg hs, if_neg hq, if_neg hd, if_neg hplain]
  split <;> rfl

theorem Escape.head?_chars (e : Escape) (hcs : cs.head? ≠ some '\x7b')
    (htail : tail.head? ≠ some '\x7b') : (e.chars cs ++ tail).head? ≠ some '\x7b' := by
  cases cs with
  | nil => exact htail
  | cons c cs =>
    rw [chars_cons, one]
    split
    · simp
    · split
      · simp
      · simpa using hcs

theorem readLiteral_one {e : Escape} {c : Char} (htail : tail.head? ≠ some '\x7b') :
    readLiteral (e.one c rest ++ (e.chars rest ++ tail)) =
      (c :: (readLiteral (e.chars rest ++ tail)).1, (readLiteral (e.chars rest ++ tail)).2) := by
  rw [one]
  split
  · next h =>
    have hn : taken c = c := by
      rcases h with rfl | rfl | ⟨rfl, -⟩ <;> decide
    rw [List.cons_append, List.cons_append, List.nil_append, readLiteral_taken, hn]
  · next h =>
    split
    · next hc =>
      rw [hc.1]
      exact readLiteral_taken
    · refine readLiteral_plain (fun hs => h (.inl hs)) (fun hq => h (.inr (.inl hq))) fun hd => ?_
      exact e.head?_chars (fun hbrace => h (.inr (.inr ⟨hd, hbrace⟩))) htail

/-- Escaped text reads as itself, whatever comes after it, except that the two cannot make up the
beginning of a substitution. -/
theorem readLiteral_chars (e : Escape) (s : List Char) {tail : List Char}
    (htail : tail.head? ≠ some '\x7b') :
    readLiteral (e.chars s ++ tail) = (s ++ (readLiteral tail).1, (readLiteral tail).2) := by
  induction s with
  | nil => rfl
  | cons c rest ih =>
    rw [chars_cons, List.append_assoc, readLiteral_one htail, ih]
    rfl

theorem newline_not_mem_inline (s : List Char) : '\n' ∉ inline.chars s := by
  induction s with
  | nil => exact List.not_mem_nil
  | cons c rest ih =>
    rw [chars_cons, List.mem_append, not_or]
    refine ⟨?_, ih⟩
    rw [one]
    split
    · next h =>
      have hc : c ≠ '\n' := by
        rcases h with rfl | rfl | ⟨rfl, -⟩ <;> decide
      simpa using hc.symm
    · split
      · decide
      · next h => simpa [eq_comm] using h

/-- Inside a template literal, escaped text is read to its end and stands for the text it was. The
literal ends with the backquote after it, not before. Inline, it stays on one line. -/
theorem escaped_reads_back (e : Escape) (s : String) :
    readLiteral (e.apply s).toList = (s.toList, .complete) ∧
      (∀ rest, readLiteral ((e.apply s).toList ++ backquote :: rest) =
        (s.toList, .closed rest)) ∧
      '\n' ∉ (Escape.inline.apply s).toList := by
  simp only [Escape.apply, String.toList_ofList]
  refine ⟨?_, fun rest => ?_, newline_not_mem_inline s.toList⟩
  · simpa [readLiteral] using @readLiteral_chars e s.toList [] (by decide)
  · rw [readLiteral_chars e s.toList (by simp [backquote]), readLiteral_closed, List.append_nil]

/-- Dollar signs, backslashes and braces side by side. -/
example : inline.apply "$$\x7b\\$\x7b\n" = "$\\$\x7b\\\\\\$\x7b\\n" := by decide

end ReactiveMarkup.Interpolation
