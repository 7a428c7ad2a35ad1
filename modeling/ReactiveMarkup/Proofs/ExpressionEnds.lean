import ReactiveMarkup.Interpolation
import ReactiveMarkup.Proofs.RoundTrip

/-! # Where an expression ends

A tag ends an expression at the brace that balances it, interpolated text at the first closing brace
outside quotes.
-/

namespace ReactiveMarkup.Interpolation

open Text

open Markup (Balanced balancedFrom braced)

/-- Quotes are closed and no closing brace stands outside them. `quote` is the open quote. -/
def uncutFrom (quote : Option Char) : List Char → Bool
  | [] => quote.isNone
  | c :: cs =>
    match quote with
    | some q => uncutFrom (if c == q then none else some q) cs
    | none => if isQuote c then uncutFrom (some c) cs else c != '\x7d' && uncutFrom none cs

def Uncut (e : String) : Prop := uncutFrom none e.toList = true

instance (e : String) : Decidable (Uncut e) :=
  inferInstanceAs (Decidable (uncutFrom none e.toList = true))

/-! ## The end in interpolated text -/

theorem split_uncut {start pos : Nat} (h : uncutFrom quote cs = true)
    (hb : trimChars (seen.reverse ++ cs) ≠ []) :
    ∃ pos', split (.code start quote seen) pos (cs ++ '\x7d' :: rest) =
      (split (.text []) pos' rest).map
        (.code (String.ofList (trimChars (seen.reverse ++ cs))) :: ·) := by
  induction cs generalizing quote seen pos with
  | nil =>
    obtain rfl : quote = none := Option.isNone_iff_eq_none.mp h
    rw [List.append_nil] at hb ⊢
    have hsome : (trimChars seen.reverse).isEmpty = false := by simpa using hb
    refine ⟨pos + '\x7d'.utf8Size, ?_⟩
    rw [List.nil_append, split.eq_def]
    simp only [hsome]
    rfl
  | cons c cs ih =>
    have keep : ∀ q p, uncutFrom q cs = true → ∃ pos',
        split (.code start q (c :: seen)) p (cs ++ '\x7d' :: rest) =
          (split (.text []) pos' rest).map
            (.code (String.ofList (trimChars (seen.reverse ++ c :: cs))) :: ·) := by
      intro q p hq
      have hlist : (c :: seen).reverse ++ cs = seen.reverse ++ c :: cs := by simp
      obtain ⟨pos', hsplit⟩ := @ih q (c :: seen) p hq (hlist ▸ hb)
      exact ⟨pos', hlist ▸ hsplit⟩
    unfold uncutFrom at h
    rw [List.cons_append, split.eq_def]
    cases quote with
    | some q => exact keep _ _ h
    | none =>
      dsimp only at h ⊢
      split at h
      · next hq =>
        rw [if_pos hq]
        exact keep _ _ h
      · next hq =>
        obtain ⟨hc, h⟩ := Bool.and_eq_true_iff.mp h
        rw [if_neg hq, if_neg (by simpa using hc)]
        exact keep _ _ h

def Mode.Busy : Mode → Prop
  | .text seen => seen ≠ []
  | .code _ _ _ => True

theorem split_ne_nil (h : mode.Busy ∨ cs ≠ []) : split mode pos cs ≠ .ok [] := by
  induction cs generalizing mode pos with
  | nil =>
    cases mode with
    | code start q seen => nofun
    | text seen =>
      have hseen : seen ≠ [] := h.resolve_right fun hne => hne rfl
      simp [split, textPart, hseen]
  | cons c cs ih =>
    rw [split.eq_def]
    cases mode with
    | text seen =>
      dsimp only
      split
      · cases hs : split (.code pos none []) (pos + c.utf8Size) cs with
        | error f => nofun
        | ok ps =>
          have hps : ps ≠ [] := by
            rintro rfl
            exact @ih (.code pos none []) _ (Or.inl trivial) hs
          simp [Except.map, hps]
      · exact ih (Or.inl (List.cons_ne_nil c seen))
    | code start q seen =>
      cases q with
      | some q => exact ih (Or.inl trivial)
      | none =>
        dsimp only
        split
        · exact ih (Or.inl trivial)
        · split
          · split
            · nofun
            · cases split (.text []) (pos + c.utf8Size) cs <;> nofun
          · exact ih (Or.inl trivial)

/-! ## Balanced expressions -/

theorem isQuote_eq : Markup.isQuote c = isQuote c := rfl

theorem exists_cut (hb : balancedFrom quote depth cs = true) (hu : uncutFrom quote cs = false) :
    ∃ front back, cs = front ++ '\x7d' :: back ∧ uncutFrom quote front = true ∧
      (depth = 0 → '\x7b' ∈ front) := by
  induction cs generalizing quote depth with
  | nil =>
    have hquote := (Bool.and_eq_true_iff.mp hb).1
    rw [uncutFrom, hquote] at hu
    cases hu
  | cons c cs ih =>
    have keep : ∀ q d, balancedFrom q d cs = true → uncutFrom q cs = false →
        (∀ front, uncutFrom q front = true → uncutFrom quote (c :: front) = true) →
        (depth = 0 → d = 0 ∨ c = '\x7b') →
        ∃ front back, c :: cs = front ++ '\x7d' :: back ∧ uncutFrom quote front = true ∧
          (depth = 0 → '\x7b' ∈ front) := by
      intro q d hb hu hfront hdepth
      obtain ⟨front, back, rfl, hcut, hopen⟩ := ih hb hu
      refine ⟨c :: front, back, rfl, hfront front hcut, fun hd => ?_⟩
      rcases hdepth hd with h | rfl
      · exact .tail c (hopen h)
      · exact List.mem_cons_self
    unfold balancedFrom at hb
    unfold uncutFrom at hu
    cases quote with
    | some q => exact keep _ _ hb hu (fun _ h => h) Or.inl
    | none =>
      rw [isQuote_eq] at hb
      by_cases hq : isQuote c = true
      · rw [if_pos hq] at hb hu
        exact keep _ _ hb hu (fun front h => by rwa [uncutFrom, if_pos hq]) Or.inl
      rw [if_neg hq] at hb hu
      by_cases hc : c = '\x7d'
      · subst hc
        refine ⟨[], cs, rfl, rfl, fun hd => ?_⟩
        rw [hd] at hb
        cases hb
      have hne : (c != '\x7d') = true := by simpa using hc
      rw [hne, Bool.true_and] at hu
      have hfront : ∀ front, uncutFrom none front = true → uncutFrom none (c :: front) = true := by
        intro front h
        rw [uncutFrom, if_neg hq, hne, h]
        rfl
      by_cases ho : c = '\x7b'
      · rw [if_pos (by simpa using ho)] at hb
        exact keep _ _ hb hu hfront fun _ => Or.inr ho
      · rw [if_neg (by simpa using ho), if_neg (by simpa using hc)] at hb
        exact keep _ _ hb hu hfront Or.inl

theorem parts_braced {front back : List Char} (he : e.toList ++ ['\x7d'] = front ++ '\x7d' :: back)
    (hu : uncutFrom none front = true) (hb : trimChars front ≠ []) : ∃ pos, parts (braced e) =
      (split (.text []) pos back).map (.code (trim (String.ofList front)) :: ·) := by
  have hlist : (braced e).toList = '\x7b' :: (front ++ '\x7d' :: back) := by
    rw [← he]
    simp [braced]
  obtain ⟨pos, hsplit⟩ := @split_uncut none front [] back 0 (0 + '\x7b'.utf8Size) hu hb
  refine ⟨pos, ?_⟩
  rw [parts, hlist, split.eq_def, trim, String.toList_ofList]
  dsimp only
  rw [if_pos (beq_self_eq_true _), hsplit]
  cases split (.text []) pos back <;> rfl

theorem trimChars_ne_nil (hc : c ∈ cs) (hb : isBlank c = false) : trimChars cs ≠ [] :=
  List.ne_nil_of_mem (mem_trimChars hc hb)

theorem parts_braced_of_uncut {e : String} (hb : allBlank e = false) (hu : Uncut e) :
    parts (braced e) = .ok [.code (trim e)] := by
  obtain ⟨c, hc, hblank⟩ := List.all_eq_false.mp hb
  obtain ⟨pos, hparts⟩ := @parts_braced e e.toList [] rfl hu
    (trimChars_ne_nil hc (by simpa using hblank))
  rw [hparts, String.ofList_toList]
  rfl

theorem parts_braced_of_cut (he : Balanced e) (hu : ¬ Uncut e) :
    ∃ front back pos, e.toList = front ++ '\x7d' :: back ∧ uncutFrom none front = true ∧
      parts (braced e) =
        (split (.text []) pos (back ++ ['\x7d'])).map
          (.code (trim (String.ofList front)) :: ·) := by
  obtain ⟨front, back, hlist, hcut, hopen⟩ := exists_cut he (Bool.eq_false_iff.mpr hu)
  have hsplit : e.toList ++ ['\x7d'] = front ++ '\x7d' :: (back ++ ['\x7d']) := by
    rw [hlist]
    simp
  obtain ⟨pos, hparts⟩ := parts_braced hsplit hcut (trimChars_ne_nil (hopen rfl) rfl)
  exact ⟨front, back, pos, hlist, hcut, hparts⟩

theorem parse_braced_iff (he : Balanced e) (hb : allBlank e = false) (esc : Escape) :
    parse (braced e) esc = .ok ⟨render esc [.code (trim e)], [.code (trim e)]⟩ ↔
      Uncut e := by
  constructor
  · intro h
    by_contra hu
    obtain ⟨front, back, pos, -, -, hparts⟩ := parts_braced_of_cut he hu
    have hsome : split (.text []) pos (back ++ ['\x7d']) ≠ .ok [] := split_ne_nil (Or.inr (by simp))
    rw [parse, hparts] at h
    cases hs : split (.text []) pos (back ++ ['\x7d']) with
    | error f =>
      rw [hs] at h
      cases h
    | ok ps =>
      rw [hs] at h
      have hnil : ps = [] := by
        have := congrArg (fun r => r.toOption.map Interpolated.parts) h
        simp only [Except.map, Except.toOption, Option.map_some, Option.some.injEq,
          List.cons.injEq] at this
        exact this.2
      exact hsome (hnil ▸ hs)
  · intro hu
    rw [parse, parts_braced_of_uncut hb hu]

end ReactiveMarkup.Interpolation

namespace ReactiveMarkup.Markup

/-- An element with one attribute, an expression, and no content. -/
def bound (name n e : String) : Element where
  id := 0
  name := name
  arg := none
  attributes := [⟨n, some (braced e), n ++ "=" ++ braced e⟩]
  openTag := ""
  closed := false
  void := false

theorem bound_written (hname : isTagName name.toList = true) (hraw : rawKind? name = none)
    (hvoid : voidNames.contains name = false) (hn : BareName n) (he : Balanced e) :
    (bound name n e).Written where
  name := hname
  ordinary := hraw
  arg := nofun
  attributes := by
    rw [bound, List.forall_mem_singleton]
    exact .code hn he
  void := hvoid.symm
  closed := nofun
  unscoped := rfl

theorem body_of_forget (h : forgetAll ns = forgetAll [.element e [] s]) :
    ∃ el s', ns = [.element el [] s'] ∧ el.attributes = e.attributes := by
  rw [forgetAll_eq_map] at h
  obtain ⟨n, rfl, hn⟩ := List.map_eq_singleton_iff.mp h
  cases n with
  | element el body s' =>
    simp only [Node.forget, Node.element.injEq, Element.mk.injEq] at hn
    obtain ⟨⟨-, -, -, hattrs, -⟩, hbody, -⟩ := hn
    have hnil : body = [] := by
      rw [forgetAll_eq_map] at hbody
      exact List.map_eq_nil_iff.mp hbody
    exact ⟨el, s', by rw [hnil], hattrs⟩
  | _ => simp [Node.forget] at hn

/-- An attribute holds its whole expression. Interpolation reads that expression, and nothing else,
exactly if no closing brace stands in it outside quotes; otherwise it is cut at the first such
brace. -/
theorem attribute_expression_ends (name n e : String) (hname : isTagName name.toList = true)
    (hraw : rawKind? name = none) (hvoid : voidNames.contains name = false) (hn : BareName n)
    (he : Balanced e) (hb : Text.allBlank e = false) (esc : Interpolation.Escape) :
    (∃ root el s, parse ("<" ++ name ++ " " ++ n ++ "=" ++ braced e ++ "></" ++ name ++ ">") =
        .ok root ∧ root.body = [.element el [] s] ∧
        el.attributes = [⟨n, some (braced e), n ++ "=" ++ braced e⟩]) ∧
      (Interpolation.parse (braced e) esc =
          .ok ⟨Interpolation.render esc [.code (Text.trim e)], [.code (Text.trim e)]⟩ ↔
        Interpolation.Uncut e) ∧
      (¬ Interpolation.Uncut e → ∃ front back pos, e.toList = front ++ '\x7d' :: back ∧
        Interpolation.uncutFrom none front = true ∧
        Interpolation.parts (braced e) =
          (Interpolation.split (.text []) pos (back ++ ['\x7d'])).map
            (.code (Text.trim (String.ofList front)) :: ·)) := by
  refine ⟨?_, Interpolation.parse_braced_iff he hb esc, Interpolation.parts_braced_of_cut he⟩
  have hempty : Regrows (fun _ => false) [] := grows_printAll _ [] trivial
  have hgrows := @grows_element (fun _ => false) [] [] ⟨0, 0⟩ _
    (bound_written hname hraw hvoid hn he) rfl hempty
  have htext : Node.print (fun _ => false) (.element (bound name n e) [] ⟨0, 0⟩) =
      "<" ++ name ++ " " ++ n ++ "=" ++ braced e ++ "></" ++ name ++ ">" := by
    rw [← String.toList_inj]
    simp [Node.print, Element.tagText, bound, argText, attributesText, printAll]
  rw [htext] at hgrows
  obtain ⟨root, hparse, hbody⟩ := parse_of_grows hgrows
  obtain ⟨el, s, hroot, hattrs⟩ := body_of_forget hbody
  exact ⟨root, el, s, hparse, hroot, hattrs⟩

/-- An object literal is read whole by the tag and cut by the text. -/
example : Balanced "\x7ba:1\x7d" ∧ Interpolation.parts (braced "\x7ba:1\x7d") =
    .ok [.code "\x7ba:1", .text "\x7d"] := by
  decide

theorem attribute_expression_ends_quoted :
    (∃ root el s,
      parse ("<" ++ "c" ++ " " ++ "n" ++ "=" ++ braced "f('\x7d') " ++ "></" ++ "c" ++ ">") =
        .ok root ∧ root.body = [.element el [] s] ∧
        el.attributes = [⟨"n", some (braced "f('\x7d') "), "n" ++ "=" ++ braced "f('\x7d') "⟩]) ∧
      Interpolation.Uncut "f('\x7d') " ∧
      Interpolation.parse (braced "f('\x7d') ") .template =
        .ok ⟨Interpolation.render .template [.code (Text.trim "f('\x7d') ")],
          [.code (Text.trim "f('\x7d') ")]⟩ := by
  have hends := attribute_expression_ends "c" "n" "f('\x7d') " (by decide) rfl (by decide)
    ⟨by decide, by decide⟩ (by decide) (by decide) .template
  have hu : Interpolation.Uncut "f('\x7d') " := by decide
  exact ⟨hends.1, hu, hends.2.1.mpr hu⟩

end ReactiveMarkup.Markup
