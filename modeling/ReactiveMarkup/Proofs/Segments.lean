import Mathlib.Data.List.Chain
import ReactiveMarkup.Proofs.ExpressionEnds

/-! # Segments of interpolated text

The grammar of interpolated text, apart from how it is read: literal characters, and expressions in
braces that close their quotes and have no closing brace outside them.
-/

namespace ReactiveMarkup.Interpolation

open List hiding tail

/-! ## The grammar -/

/-- Text that may stand between braces: each quote is closed by the same character, and no closing
brace stands outside quotes. -/
inductive Enclosed : List Char → Prop where
  | nil : Enclosed []
  | plain : isQuote c = false → c ≠ '\x7d' → Enclosed cs → Enclosed (c :: cs)
  | quoted : isQuote q = true → q ∉ mid → Enclosed cs → Enclosed (q :: (mid ++ q :: cs))

/-- Literal characters, and expressions in braces that are not blank. -/
inductive Interpolates : List Char → Prop where
  | nil : Interpolates []
  | literal : c ≠ '\x7b' → Interpolates cs → Interpolates (c :: cs)
  | braces : Enclosed raw → Text.trimChars raw ≠ [] → Interpolates cs →
    Interpolates ('\x7b' :: (raw ++ '\x7d' :: cs))

inductive Segment where
  | text (value : List Char)
  | code (raw : List Char)
  deriving DecidableEq, Repr

namespace Segment

def isText : Segment → Bool
  | text _ => true
  | code _ => false

def print : Segment → List Char
  | text value => value
  | code raw => '\x7b' :: (raw ++ ['\x7d'])

def part : Segment → Part
  | text value => .text (String.ofList value)
  | code raw => .code (String.ofList (Text.trimChars raw))

def Proper : Segment → Prop
  | text value => value ≠ [] ∧ '\x7b' ∉ value
  | code raw => Enclosed raw ∧ Text.trimChars raw ≠ []

end Segment

/-- Proper segments whose literals are as long as possible: no two of them meet. -/
structure Segmented (l : List Segment) : Prop where
  proper : ∀ s ∈ l, s.Proper
  maximal : l.IsChain fun a b => a.isText = true → b.isText = false

def printSegments (l : List Segment) : List Char := l.flatMap Segment.print

/-! ## Quotes -/

def quoteAfter (quote : Option Char) (c : Char) : Option Char :=
  match quote with
  | some q => if c == q then none else some q
  | none => if isQuote c then some c else none

theorem ne_brace_of_quote (h : isQuote c = true) : (c != '\x7d') = true := by
  rw [bne_iff_ne]
  rintro rfl
  cases h

theorem uncutFrom_cons : uncutFrom quote (c :: cs) =
      ((quote.isSome || c != '\x7d') && uncutFrom (quoteAfter quote c) cs) := by
  cases quote with
  | some q => rfl
  | none =>
    rw [uncutFrom, quoteAfter]
    cases hq : isQuote c with
    | false => rfl
    | true =>
      rw [ne_brace_of_quote hq]
      rfl

theorem uncutFrom_iff (quote : Option Char) : uncutFrom quote cs = true ↔
      match quote with
      | none => Enclosed cs
      | some q => ∃ inner rest, cs = inner ++ q :: rest ∧ q ∉ inner ∧ Enclosed rest := by
  induction cs generalizing quote with
  | nil =>
    cases quote with
    | none => exact ⟨fun _ => .nil, fun _ => rfl⟩
    | some q =>
      refine ⟨nofun, ?_⟩
      rintro ⟨inner, rest, h, -⟩
      simp at h
  | cons c cs ih =>
    rw [uncutFrom_cons, Bool.and_eq_true_iff, ih]
    cases quote with
    | some q =>
      rw [quoteAfter]
      by_cases hc : c = q
      · subst hc
        simp only [beq_self_eq_true, if_true, Option.isSome_some, Bool.true_or, true_and]
        constructor
        · exact fun h => ⟨[], cs, rfl, not_mem_nil, h⟩
        · rintro ⟨inner, rest, heq, hnot, h⟩
          cases inner with
          | nil =>
            cases heq
            exact h
          | cons d inner =>
            cases heq
            exact absurd mem_cons_self hnot
      · have hne : (c == q) = false := beq_eq_false_iff_ne.mpr hc
        simp only [hne, Bool.false_eq_true, if_false, Option.isSome_some, Bool.true_or, true_and]
        constructor
        · rintro ⟨inner, rest, rfl, hnot, h⟩
          exact ⟨c :: inner, rest, rfl, not_mem_cons_of_ne_of_not_mem (Ne.symm hc) hnot, h⟩
        · rintro ⟨inner, rest, heq, hnot, h⟩
          cases inner with
          | nil =>
            cases heq
            exact absurd rfl hc
          | cons d inner =>
            cases heq
            exact ⟨inner, rest, rfl, fun hm => hnot (.tail _ hm), h⟩
    | none =>
      rw [quoteAfter]
      cases hq : isQuote c with
      | true =>
        simp only [if_true, Option.isSome_none, Bool.false_or, ne_brace_of_quote hq, true_and]
        constructor
        · rintro ⟨inner, rest, rfl, hnot, h⟩
          exact .quoted hq hnot h
        · intro h
          cases h with
          | plain hplain =>
            rw [hq] at hplain
            cases hplain
          | quoted _ hnot h => exact ⟨_, _, rfl, hnot, h⟩
      | false =>
        simp only [Bool.false_eq_true, if_false, Option.isSome_none, Bool.false_or, bne_iff_ne]
        constructor
        · exact fun h => .plain hq h.1 h.2
        · intro h
          cases h with
          | plain _ hc h => exact ⟨hc, h⟩
          | quoted hquote =>
            rw [hq] at hquote
            cases hquote

theorem enclosed_iff : Enclosed raw ↔ uncutFrom none raw = true :=
  (uncutFrom_iff none).symm

theorem uncutFrom_unique (h : uncutFrom quote raw = true) (h' : uncutFrom quote raw' = true)
    (heq : raw ++ '\x7d' :: x = raw' ++ '\x7d' :: x') : raw = raw' ∧ x = x' := by
  induction raw generalizing raw' quote with
  | nil =>
    obtain rfl : quote = none := Option.isNone_iff_eq_none.mp h
    cases raw' with
    | nil =>
      cases heq
      exact ⟨rfl, rfl⟩
    | cons c raw' =>
      cases heq
      cases h'
  | cons c raw ih =>
    cases raw' with
    | nil =>
      obtain rfl : quote = none := Option.isNone_iff_eq_none.mp h'
      cases heq
      cases h
    | cons d raw' =>
      obtain ⟨rfl, htail⟩ := List.cons.inj heq
      rw [uncutFrom_cons] at h h'
      obtain ⟨rfl, hx⟩ := ih (Bool.and_eq_true_iff.mp h).2 (Bool.and_eq_true_iff.mp h').2 htail
      exact ⟨rfl, hx⟩

/-! ## Segments -/

section Segmented

variable {s : Segment} {l l' : List Segment} {value raw : List Char}

theorem segmented_nil : Segmented [] := ⟨nofun, .nil⟩

theorem segmented_cons : Segmented (s :: l) ↔
    s.Proper ∧ (s.isText = true → ∀ t ∈ l.head?, t.isText = false) ∧ Segmented l := by
  constructor
  · intro h
    obtain ⟨hs, hl⟩ := forall_mem_cons.mp h.proper
    obtain ⟨hhead, hchain⟩ := isChain_cons.mp h.maximal
    exact ⟨hs, fun htext t ht => hhead t ht htext, hl, hchain⟩
  · rintro ⟨hs, hhead, hl, hchain⟩
    exact ⟨forall_mem_cons.mpr ⟨hs, hl⟩,
      isChain_cons.mpr ⟨fun t ht htext => hhead htext t ht, hchain⟩⟩

theorem segmented_code : Segmented (.code raw :: l) ↔
    (Enclosed raw ∧ Text.trimChars raw ≠ []) ∧ Segmented l := by
  rw [segmented_cons]
  exact and_congr_right fun _ => and_iff_right nofun

theorem printSegments_cons : printSegments (s :: l) = s.print ++ printSegments l :=
  flatMap_cons

theorem printSegments_code :
    printSegments (.code raw :: l) = '\x7b' :: (raw ++ '\x7d' :: printSegments l) := by
  simp [printSegments_cons, Segment.print]

theorem head?_printSegments (hhead : ∀ t ∈ l.head?, t.isText = false) :
    ∀ c ∈ (printSegments l).head?, c = '\x7b' := by
  cases l with
  | nil => nofun
  | cons t l =>
    cases t with
    | text value => cases hhead _ rfl
    | code raw =>
      rintro c ⟨⟩
      rfl

theorem takeWhile_literal (hv : '\x7b' ∉ value) (htail : ∀ c ∈ tail.head?, c = '\x7b') :
    (value ++ tail).takeWhile (· != '\x7b') = value := by
  rw [takeWhile_append_of_pos]
  · cases tail with
    | nil => simp
    | cons c tail => simp [htail c rfl]
  · intro c hc
    rw [bne_iff_ne]
    rintro rfl
    exact hv hc

theorem Segment.Proper.print_ne_nil (h : s.Proper) : s.print ≠ [] := by
  cases s with
  | text value => exact h.1
  | code raw => exact cons_ne_nil _ _

theorem not_meet (h : (Segment.text value).Proper) :
    (Segment.text value).print ++ tail ≠ (Segment.code raw).print ++ tail' := by
  intro heq
  cases value with
  | nil => exact h.1 rfl
  | cons c value =>
    obtain rfl : c = '\x7b' := (List.cons.inj heq).1
    exact h.2 mem_cons_self

theorem Segmented.unique (h : Segmented l) (h' : Segmented l')
    (heq : printSegments l = printSegments l') : l = l' := by
  induction l generalizing l' with
  | nil =>
    cases l' with
    | nil => rfl
    | cons s l' =>
      exact absurd (append_eq_nil_iff.mp heq.symm).1 (segmented_cons.mp h').1.print_ne_nil
  | cons s l ih =>
    obtain ⟨hs, hhead, hl⟩ := segmented_cons.mp h
    cases l' with
    | nil =>
      exact absurd (append_eq_nil_iff.mp heq).1 hs.print_ne_nil
    | cons s' l' =>
      obtain ⟨hs', hhead', hl'⟩ := segmented_cons.mp h'
      cases s with
      | text value =>
        cases s' with
        | text value' =>
          have hvalue : value = value' := by
            rw [← takeWhile_literal hs.2 (head?_printSegments (hhead rfl)),
              ← takeWhile_literal hs'.2 (head?_printSegments (hhead' rfl))]
            exact congrArg _ heq
          subst hvalue
          rw [ih hl hl' (append_cancel_left heq)]
        | code raw' =>
          exact absurd heq (not_meet hs)
      | code raw =>
        cases s' with
        | text value' =>
          exact absurd heq.symm (not_meet hs')
        | code raw' =>
          rw [printSegments_code, printSegments_code] at heq
          obtain ⟨rfl, htail⟩ := uncutFrom_unique (enclosed_iff.mp hs.1)
            (enclosed_iff.mp hs'.1) (List.cons.inj heq).2
          rw [ih hl hl' htail]

theorem Segmented.interpolates (h : Segmented l) : Interpolates (printSegments l) := by
  induction l with
  | nil => exact .nil
  | cons s l ih =>
    obtain ⟨hs, -, hl⟩ := segmented_cons.mp h
    cases s with
    | code raw =>
      rw [printSegments_code]
      exact .braces hs.1 hs.2 (ih hl)
    | text value =>
      have hliteral : ∀ cs : List Char, '\x7b' ∉ cs → Interpolates (cs ++ printSegments l) := by
        intro cs hcs
        induction cs with
        | nil => exact ih hl
        | cons c cs ihc =>
          exact .literal (ne_of_not_mem_cons hcs).symm (ihc (not_mem_of_not_mem_cons hcs))
      exact hliteral value hs.2

end Segmented

theorem Interpolates.exists_segments (h : Interpolates cs) :
    ∃ l, Segmented l ∧ printSegments l = cs := by
  induction h with
  | nil => exact ⟨[], segmented_nil, rfl⟩
  | @braces raw cs hraw hblank _ ih =>
    obtain ⟨l, hl, rfl⟩ := ih
    exact ⟨.code raw :: l, segmented_code.mpr ⟨⟨hraw, hblank⟩, hl⟩, printSegments_code⟩
  | @literal c cs hc _ ih =>
    obtain ⟨l, hl, rfl⟩ := ih
    have hfresh : (∀ t ∈ l.head?, t.isText = false) →
        ∃ l', Segmented l' ∧ printSegments l' = c :: printSegments l := fun hhead =>
      ⟨.text [c] :: l, segmented_cons.mpr ⟨⟨by simp, by simpa using Ne.symm hc⟩, fun _ => hhead, hl⟩,
        rfl⟩
    -- the character joins the literal that follows it, if there is one
    cases l with
    | nil => exact hfresh nofun
    | cons s l =>
      cases s with
      | code raw =>
        refine hfresh ?_
        rintro t ⟨⟩
        rfl
      | text value =>
        obtain ⟨hs, hhead, hl⟩ := segmented_cons.mp hl
        refine ⟨.text (c :: value) :: l, segmented_cons.mpr ⟨⟨by simp, ?_⟩, hhead, hl⟩, rfl⟩
        exact not_mem_cons_of_ne_of_not_mem (Ne.symm hc) hs.2

/-! ## Reading -/

section Reading

variable {seen cs : List Char} {ps : List Part} {l : List Segment} {start pos : Nat}
  {quote : Option Char}

theorem split_text_cons (hc : c ≠ '\x7b') :
    split (.text seen) pos (c :: cs) = split (.text (c :: seen)) (pos + c.utf8Size) cs := by
  exact if_neg (by simpa using hc)

theorem split_open : split (.text seen) pos ('\x7b' :: cs) =
    (split (.code pos none []) (pos + '\x7b'.utf8Size) cs).map (textPart seen ++ ·) := by
  rfl

theorem split_close : split (.code start none seen) pos ('\x7d' :: cs) =
    if (Text.trimChars seen.reverse).isEmpty then .error (.empty start)
    else (split (.text []) (pos + '\x7d'.utf8Size) cs).map
      (.code (String.ofList (Text.trimChars seen.reverse)) :: ·) := by
  rfl

theorem split_code_cons (hc : quote.isSome = true ∨ c ≠ '\x7d') :
    split (.code start quote seen) pos (c :: cs) =
      split (.code start (quoteAfter quote c) (c :: seen)) (pos + c.utf8Size) cs := by
  rw [split.eq_def]
  cases quote with
  | some q => rfl
  | none =>
    have hne : c ≠ '\x7d' := hc.resolve_left (by decide)
    dsimp only
    rw [quoteAfter]
    split
    · rfl
    · exact if_neg (by simpa using hne)

theorem split_literal (hv : '\x7b' ∉ value) :
    ∃ pos', split (.text seen) pos (value ++ cs) = split (.text (value.reverse ++ seen)) pos' cs := by
  induction value generalizing seen pos with
  | nil => exact ⟨pos, rfl⟩
  | cons c value ih =>
    obtain ⟨pos', h⟩ := @ih (c :: seen) (pos + c.utf8Size) (not_mem_of_not_mem_cons hv)
    refine ⟨pos', ?_⟩
    rw [cons_append, split_text_cons (ne_of_not_mem_cons hv).symm, h]
    simp

theorem textPart_reverse (hv : value ≠ []) :
    textPart value.reverse = [.text (String.ofList value)] := by
  simp [textPart, hv]

/-- Segments are read as they were written. A literal that has been begun is not continued. -/
theorem split_segments (hl : Segmented l)
    (hseen : seen ≠ [] → ∀ t ∈ l.head?, t.isText = false) :
    split (.text seen) pos (printSegments l) = .ok (textPart seen ++ l.map Segment.part) := by
  induction l generalizing seen pos with
  | nil => simp [printSegments, split]
  | cons s l ih =>
    obtain ⟨hs, hhead, htail⟩ := segmented_cons.mp hl
    cases s with
    | text value =>
      obtain rfl : seen = [] := by
        by_contra hne
        cases hseen hne _ rfl
      obtain ⟨pos', h⟩ := @split_literal [] (printSegments l) pos value hs.2
      refine h.trans ?_
      rw [append_nil, ih htail fun _ => hhead rfl, textPart_reverse hs.1]
      rfl
    | code raw =>
      obtain ⟨pos', h⟩ := @split_uncut none raw [] (printSegments l) pos (pos + '\x7b'.utf8Size)
        (enclosed_iff.mp hs.1) hs.2
      rw [printSegments_code, split_open, h, ih htail fun hne => absurd rfl hne]
      rfl

/-- What has been read in a mode, with the rest of the text. -/
def Mode.Reads : Mode → List Char → List Part → Prop
  | .text seen, cs, ps => '\x7b' ∉ seen →
    ∃ l, Segmented l ∧ printSegments l = seen.reverse ++ cs ∧ l.map Segment.part = ps
  | .code _ quote seen, cs, ps =>
    ∃ raw l, cs = raw ++ '\x7d' :: printSegments l ∧ uncutFrom quote raw = true ∧
      Text.trimChars (seen.reverse ++ raw) ≠ [] ∧ Segmented l ∧
      .code (String.ofList (Text.trimChars (seen.reverse ++ raw))) :: l.map Segment.part = ps

theorem reads_of_literal (hseen : '\x7b' ∉ seen) (hl : Segmented l)
    (hhead : ∀ t ∈ l.head?, t.isText = false) :
    ∃ l', Segmented l' ∧ printSegments l' = seen.reverse ++ printSegments l ∧
      l'.map Segment.part = textPart seen ++ l.map Segment.part := by
  by_cases hempty : seen = []
  · subst hempty
    exact ⟨l, hl, rfl, rfl⟩
  · refine ⟨.text seen.reverse :: l, segmented_cons.mpr ⟨⟨by simpa using hempty, ?_⟩,
      fun _ => hhead, hl⟩, rfl, ?_⟩
    · rwa [mem_reverse]
    · simp [textPart, hempty, Segment.part]

theorem reads_of_split (h : split mode pos cs = .ok ps) : mode.Reads cs ps := by
  induction cs generalizing mode pos ps with
  | nil =>
    cases mode with
    | text seen =>
      intro hseen
      cases h
      simpa [printSegments] using reads_of_literal hseen segmented_nil nofun
    | code start quote seen => cases h
  | cons c cs ih =>
    cases mode with
    | text seen =>
      intro hseen
      by_cases hc : c = '\x7b'
      · subst hc
        rw [split_open] at h
        cases hcode : split (.code pos none []) (pos + '\x7b'.utf8Size) cs with
        | error f =>
          rw [hcode] at h
          cases h
        | ok qs =>
          rw [hcode] at h
          cases h
          obtain ⟨raw, l, rfl, hraw, hblank, hl, rfl⟩ := ih hcode
          have hcons : Segmented (.code raw :: l) :=
            segmented_code.mpr ⟨⟨enclosed_iff.mpr hraw, hblank⟩, hl⟩
          have hliteral := reads_of_literal hseen hcons (by rintro t ⟨⟩; rfl)
          rwa [printSegments_code] at hliteral
      · rw [split_text_cons hc] at h
        obtain ⟨l, hl, hprint, hparts⟩ := ih h (not_mem_cons_of_ne_of_not_mem (Ne.symm hc) hseen)
        exact ⟨l, hl, by simpa using hprint, hparts⟩
    | code start quote seen =>
      by_cases hc : quote.isSome = true ∨ c ≠ '\x7d'
      · rw [split_code_cons hc] at h
        obtain ⟨raw, l, rfl, hraw, hblank, hl, rfl⟩ := ih h
        have hlist : (c :: seen).reverse ++ raw = seen.reverse ++ c :: raw := by simp
        refine ⟨c :: raw, l, rfl, ?_, hlist ▸ hblank, hl, by rw [hlist]⟩
        rw [uncutFrom_cons, hraw, Bool.and_true, Bool.or_eq_true, bne_iff_ne]
        exact hc
      · obtain ⟨hquote, hclose⟩ := not_or.mp hc
        obtain rfl := Decidable.not_not.mp hclose
        obtain rfl : quote = none := by simpa using hquote
        rw [split_close] at h
        split at h
        · cases h
        · next hblank =>
          cases hrest : split (.text []) (pos + '\x7d'.utf8Size) cs with
          | error f =>
            rw [hrest] at h
            cases h
          | ok qs =>
            rw [hrest] at h
            cases h
            obtain ⟨l, hl, hprint, rfl⟩ := ih hrest not_mem_nil
            refine ⟨[], l, by rw [hprint]; rfl, rfl, ?_, hl, ?_⟩
            · simpa using hblank
            · rw [append_nil]

end Reading

theorem parts_eq_ok_iff : parts source = .ok ps ↔
    ∃ l, Segmented l ∧ printSegments l = source.toList ∧ l.map Segment.part = ps := by
  constructor
  · exact fun h => reads_of_split h not_mem_nil
  · rintro ⟨l, hl, hprint, rfl⟩
    rw [parts, ← hprint]
    exact split_segments hl fun hne => absurd rfl hne

theorem parse_eq_ok_iff :
    parse source e = .ok r ↔ ∃ l, Segmented l ∧ printSegments l = source.toList ∧
      r = ⟨render e (l.map Segment.part), l.map Segment.part⟩ := by
  have hparse : parse source e = .ok r ↔ ∃ ps, parts source = .ok ps ∧ r = ⟨render e ps, ps⟩ := by
    rw [parse]
    cases parts source with
    | error f => simp
    | ok ps => simp [eq_comm]
  rw [hparse]
  constructor
  · rintro ⟨ps, hps, rfl⟩
    obtain ⟨l, hl, hprint, rfl⟩ := parts_eq_ok_iff.mp hps
    exact ⟨l, hl, hprint, rfl⟩
  · rintro ⟨l, hl, hprint, rfl⟩
    exact ⟨_, parts_eq_ok_iff.mpr ⟨l, hl, hprint, rfl⟩, rfl⟩

/-- Reading succeeds exactly on the texts of the grammar. Its parts are those of the one division of
the text into segments with maximal literals, and each such division is found again in its text. -/
theorem parse_reads_segments (e : Escape) :
    (∀ source : String, (∃ r, parse source e = .ok r) ↔ Interpolates source.toList) ∧
      (∀ (source : String) (r : Interpolated), parse source e = .ok r →
        ∃ l, Segmented l ∧ printSegments l = source.toList ∧ r.parts = l.map Segment.part ∧
          ∀ l', Segmented l' → printSegments l' = source.toList → l' = l) ∧
      ∀ l, Segmented l → parse (String.ofList (printSegments l)) e =
        .ok ⟨render e (l.map Segment.part), l.map Segment.part⟩ := by
  refine ⟨fun source => ⟨?_, fun h => ?_⟩, fun source r h => ?_, fun l hl => ?_⟩
  · rintro ⟨r, h⟩
    obtain ⟨l, hl, hprint, -⟩ := parse_eq_ok_iff.mp h
    exact hprint ▸ hl.interpolates
  · obtain ⟨l, hl, hprint⟩ := h.exists_segments
    exact ⟨_, parse_eq_ok_iff.mpr ⟨l, hl, hprint, rfl⟩⟩
  · obtain ⟨l, hl, hprint, rfl⟩ := parse_eq_ok_iff.mp h
    exact ⟨l, hl, hprint, rfl, fun l' hl' hprint' => hl'.unique hl (hprint'.trans hprint.symm)⟩
  · exact parse_eq_ok_iff.mpr ⟨l, hl, String.toList_ofList.symm, rfl⟩

/-- A closing brace in quotes, with blanks around the expression. -/
def quotedBrace : List Segment :=
  [.text ['a', ' '], .code [' ', 'f', '(', '\x27', '\x7d', '\x27', ')', ' '], .text ['!']]

theorem segmented_quotedBrace : Segmented quotedBrace := by
  have hcode : Enclosed [' ', 'f', '(', '\x27', '\x7d', '\x27', ')', ' '] :=
    enclosed_iff.mpr (by decide)
  refine ⟨?_, by simp [quotedBrace, Segment.isText]⟩
  simpa [quotedBrace, Segment.Proper, hcode] using (by decide :
    Text.trimChars [' ', 'f', '(', '\x27', '\x7d', '\x27', ')', ' '] ≠ [])

theorem parse_reads_segments_quotedBrace :
    parse "a \x7b f('\x7d') \x7d!" .template =
        .ok ⟨render .template (quotedBrace.map Segment.part), quotedBrace.map Segment.part⟩ ∧
      Interpolates "a \x7b f('\x7d') \x7d!".toList ∧
      ∀ l, Segmented l → printSegments l = printSegments quotedBrace → l = quotedBrace := by
  obtain ⟨haccepts, hunique, hrecovers⟩ := parse_reads_segments .template
  have hparse := hrecovers quotedBrace segmented_quotedBrace
  obtain ⟨l, -, -, -, hl⟩ := hunique _ _ hparse
  refine ⟨hparse, (haccepts _).mp ⟨_, hparse⟩, fun l' hl' hprint => ?_⟩
  exact (hl l' hl' hprint).trans (hl quotedBrace segmented_quotedBrace rfl).symm

end ReactiveMarkup.Interpolation
