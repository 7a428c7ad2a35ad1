import Mathlib.Data.List.Basic
import ReactiveMarkup.Markup.Lexeme
import ReactiveMarkup.Proofs.Slices

/-! # The spelling of lexemes

Every lexeme is written in the source as its token says, and the lexemes of a source follow each
other without gaps.
-/

namespace ReactiveMarkup.Markup

open List hiding after

open Text (byteLength)

/-! ## Names of close tags -/

theorem toList_byteArray (bs : ByteArray) : bs.toList = bs.data.toList := by
  have hloop : ∀ (i : Nat) (r : List UInt8),
      ByteArray.toList.loop bs i r = r.reverse ++ bs.data.toList.drop i := by
    intro i r
    fun_induction ByteArray.toList.loop bs i r with
    | case1 i r hlt ih =>
      have hget : bs.get! i = bs.data.toList[i] := by
        rw [Array.getElem_toList, ← getElem!_pos bs.data i hlt]
        rfl
      rw [ih, hget, drop_eq_getElem_cons hlt]
      simp
    | case2 i r hge =>
      have hge : bs.data.toList.length ≤ i := Nat.le_of_not_lt hge
      rw [drop_eq_nil_of_le hge, append_nil]
  exact hloop 0 []

theorem utf8_ofList : (String.ofList cs).toUTF8.toList = cs.flatMap String.utf8EncodeChar := by
  rw [toList_byteArray, String.toUTF8_eq_toByteArray, String.toByteArray_ofList, List.utf8Encode,
    toList_data_toByteArray]

theorem lead_byte (hc : 0x80 ≤ c.toNat) : ∃ b ∈ String.utf8EncodeChar c, 0xC0 ≤ b.toNat := by
  have hv : ¬ c.val.toNat ≤ 0x7f := by
    have : c.val.toNat = c.toNat := rfl
    omega
  unfold String.utf8EncodeChar
  simp only [if_neg hv]
  split
  · exact ⟨_, mem_cons_self, by simp; omega⟩
  · split
    · exact ⟨_, mem_cons_self, by simp; omega⟩
    · exact ⟨_, mem_cons_self, by simp; omega⟩

theorem encode_ascii (hc : c.toNat < 0x80) :
    (String.utf8EncodeChar c).map (fun b => Char.ofNat b.toNat) = [c] := by
  have hv : c.val.toNat ≤ 0x7f := Nat.le_of_lt_succ hc
  have hb : (UInt8.ofNat c.val.toNat).toNat = c.toNat := by
    exact Nat.mod_eq_of_lt (Nat.lt_trans hc (by decide))
  unfold String.utf8EncodeChar
  simp only [if_pos hv, map_cons, map_nil, hb, Char.ofNat_toNat]

theorem trim_of_closeName (hn : closeName r = name) (ha : ∀ c ∈ name.toList, c.toNat < 0x80) :
    Text.trim (String.ofList r) = name := by
  subst hn
  let read (b : UInt8) : Char := Char.ofNat b.toNat
  have hname : closeName r =
      String.ofList (Text.trimChars ((r.flatMap String.utf8EncodeChar).map read)) := by
    rw [closeName, utf8_ofList, Text.trim, String.toList_ofList]
  have hascii : ∀ c ∈ r, c.toNat < 0x80 := by
    intro c hc
    refine Nat.lt_of_not_le fun hge => ?_
    obtain ⟨b, hb, hlead⟩ := lead_byte hge
    have hlt := b.toNat_lt
    have hcode : (read b).toNat = b.toNat := by
      have hvalid : b.toNat.isValidChar := Or.inl (by omega)
      have hread : read b = Char.ofNatAux b.toNat hvalid := dif_pos hvalid
      rw [hread]
      rfl
    have hblank : Text.isBlank (read b) = false := by
      simp only [Text.isBlank, hcode]
      simp
      omega
    have hmem : read b ∈ (closeName r).toList := by
      rw [hname, String.toList_ofList]
      refine Text.mem_trimChars ?_ hblank
      exact mem_map.mpr ⟨b, mem_flatMap.mpr ⟨c, hc, hb⟩, rfl⟩
    have := ha _ hmem
    omega
  have hsame : (r.flatMap String.utf8EncodeChar).map read = r := by
    rw [map_flatMap]
    calc r.flatMap (fun c => (String.utf8EncodeChar c).map read)
        = r.flatMap (fun c => [c]) := flatMap_congr fun c hc => encode_ascii (hascii c hc)
      _ = r := flatMap_singleton' r
  rw [hname, hsame, Text.trim, String.toList_ofList]

/-! ## Names of open tags -/

theorem bounds_of_isAlphanum {c : Char} (h : c.isAlphanum = true) :
    0x30 ≤ c.toNat ∧ c.toNat < 0x80 := by
  have between : ∀ a z : Char, 0x30 ≤ a.toNat → z.toNat < 0x80 → a.val ≤ c.val → c.val ≤ z.val →
      0x30 ≤ c.toNat ∧ c.toNat < 0x80 := by
    intro a z ha hz hac hcz
    exact ⟨Nat.le_trans ha (UInt32.le_iff_toNat_le.mp hac),
      Nat.lt_of_le_of_lt (UInt32.le_iff_toNat_le.mp hcz) hz⟩
  rcases Bool.or_eq_true_iff.mp h with h | h
  · rcases Bool.or_eq_true_iff.mp h with h | h
    · obtain ⟨ha, hz⟩ := of_decide_eq_true h
      exact between 'A' 'Z' (by decide) (by decide) ha hz
    · obtain ⟨ha, hz⟩ := Bool.and_eq_true_iff.mp h
      exact between 'a' 'z' (by decide) (by decide) (of_decide_eq_true ha) (of_decide_eq_true hz)
  · obtain ⟨ha, hz⟩ := Bool.and_eq_true_iff.mp h
    exact between '0' '9' (by decide) (by decide) (of_decide_eq_true ha) (of_decide_eq_true hz)

namespace TagState

variable {s s' : TagState} {c : Char}

@[simp] theorem name_start : (s.start c).name = s.name := by
  unfold TagState.start
  split <;> rfl

theorem name_flush (h : s.flush = .ok s') : s'.name = s.name := by
  unfold flush at h
  split at h
  · cases h; rfl
  · split at h
    · cases h
    · split at h <;> cases h <;> rfl

theorem name_finish (h : s.finish = .ok tag) : tag.name = String.ofList s.name.reverse := by
  unfold finish at h
  cases hf : s.flush with
  | error f => rw [hf] at h; cases h
  | ok t =>
    rw [hf] at h
    cases h
    rw [← name_flush hf]

theorem name_attributeChar (h : s.attributeChar c = .ok s') : s'.name = s.name := by
  unfold attributeChar at h
  split at h
  · cases h; rfl
  · split at h
    · cases h; rfl
    · split at h
      · exact name_flush h
      · cases h; rfl

/-- What one step may do to the name: nothing, or add a character of ASCII. -/
def Named (s : TagState) (c : Char) : Except Fault (TagState ⊕ OpenTag) → Prop
  | .ok (.inl s') => s'.name = s.name ∨ c.toNat < 0x80 ∧ s'.name = c :: s.name
  | .ok (.inr tag) => tag.name = String.ofList s.name.reverse
  | .error _ => True

theorem Named.ite [Decidable p] (ha : Named s c a) (hb : Named s c b) :
    Named s c (if p then a else b) := by
  split
  · exact ha
  · exact hb

section

variable (hn : s'.name = s.name)
include hn

theorem named_finish : Named s c (s'.finish.map .inr) := by
  cases hf : s'.finish with
  | error f => trivial
  | ok tag =>
    have hname := name_finish hf
    rw [hn] at hname
    exact hname

theorem named_flush : Named s c (s'.flush.map .inl) := by
  cases hf : s'.flush with
  | error f => trivial
  | ok t => exact Or.inl ((name_flush hf).trans hn)

theorem named_attributeChar : Named s c ((s'.attributeChar c).map .inl) := by
  cases hf : s'.attributeChar c with
  | error f => trivial
  | ok t => exact Or.inl ((name_attributeChar hf).trans hn)

theorem named_nameChar : Named s c (.ok (.inl (s'.nameChar c))) := by
  unfold nameChar
  split
  · next hc =>
    refine Or.inr ⟨?_, by simp [hn]⟩
    rcases Bool.or_eq_true_iff.mp hc with hc | hc
    · exact (bounds_of_isAlphanum hc).2
    · obtain rfl : c = '-' := by simpa using (Bool.and_eq_true_iff.mp hc).1
      decide
  · split
    · exact Or.inl hn
    · split <;> exact Or.inl hn

end

theorem named_step (s : TagState) (start pos : Nat) (c : Char) :
    Named s c (s.step start pos c) := by
  have hstart : (s.start c).name = s.name := name_start
  refine .ite (.ite (named_finish rfl) trivial) ?_
  cases s.quote with
  | some q =>
    refine Or.inl ?_
    split <;> rfl
  | none =>
    -- Only a character outside quotes and braces that is no mark of the tag can belong to the name.
    refine .ite (Or.inl hstart) (.ite (Or.inl hstart) (.ite ?_ ?_))
    · exact .ite (.ite (named_flush hstart) (Or.inl hstart)) (Or.inl hstart)
    · refine .ite trivial (.ite trivial (.ite (Or.inl hstart) (.ite (named_finish hstart) ?_)))
      exact .ite (named_nameChar hstart) (named_attributeChar hstart)

end TagState

theorem readTag_eq (h : readTag start s pos cs = .ok (tag, rest))
    (hs : ∀ c ∈ s.name, c.toNat < 0x80) :
    (∃ front, cs = front ++ rest) ∧ ∀ c ∈ tag.name.toList, c.toNat < 0x80 := by
  induction cs generalizing s pos with
  | nil => simp [readTag] at h
  | cons c cs ih =>
    have hstep := s.named_step start pos c
    rw [readTag] at h
    split at h
    · cases h
    · next s' heq =>
      rw [heq] at hstep
      obtain ⟨⟨front, hfront⟩, hname⟩ := ih h (by
        rcases hstep with hsame | ⟨hc, hcons⟩
        · rw [hsame]
          exact hs
        · rw [hcons]
          exact forall_mem_cons.mpr ⟨hc, hs⟩)
      exact ⟨⟨c :: front, by rw [hfront]; rfl⟩, hname⟩
    · next tag' heq =>
      rw [heq] at hstep
      cases h
      refine ⟨⟨[c], rfl⟩, ?_⟩
      intro d hd
      rw [show tag.name = _ from hstep, String.toList_ofList, mem_reverse] at hd
      exact hs d hd

/-! ## Lexemes -/

def Token.Spells : Token → List Char → Prop
  | .text value, cs => cs = value.toList
  | .comment content, cs => cs = content.toList
  | .raw kind _ opening content, cs =>
    cs = opening.toList ++ content.toList ++ ("</" ++ kind.name ++ ">").toList
  | .openTag tag written, cs => cs = written.toList ∧ ∀ c ∈ tag.name.toList, c.toNat < 0x80
  | .closeTag name, cs => ∃ r, cs = '<' :: '/' :: r ++ ['>'] ∧ closeName r = name
  | .control role header, cs =>
    cs = '\x7b' :: header.toList ++ ['\x7d'] ∧ Control.ofHeader? header = some role

theorem opensLexeme_brace (hc : c ≠ '<') (h : opensLexeme (c :: rest) = true) : c = '\x7b' := by
  unfold opensLexeme at h
  split at h
  · next heq => exact absurd (List.cons.inj heq).1 hc
  · next heq => exact (List.cons.inj heq).1
  · cases h

theorem closeTag_spells (hs : rest.head? = some '/') (hr : rest = front ++ ['>'] ++ after) :
    ∃ text, '<' :: rest = text ++ after ∧ (Token.closeTag (closeName front.tail)).Spells text := by
  cases front with
  | nil => simp [hr] at hs
  | cons d r =>
    obtain rfl : d = '/' := by simpa [hr] using hs
    exact ⟨'<' :: '/' :: r ++ ['>'], by simp [hr], r, rfl, rfl⟩

theorem readLexeme_spells (h : readLexeme pos c rest = .ok (token, after)) :
    ∃ text, c :: rest = text ++ after ∧ token.Spells text := by
  unfold readLexeme at h
  dsimp only at h
  split at h
  · next hlt =>
    obtain rfl : c = '<' := eq_of_beq hlt
    split at h
    · split at h
      · next front _ hr =>
        cases h
        refine ⟨front ++ "-->".toList, readUntil_eq (by decide) hr, ?_⟩
        simp [Token.Spells]
      · cases h
    · split at h
      · next hslash =>
        split at h
        · next front _ hr =>
          cases h
          exact closeTag_spells (eq_of_beq hslash) (readUntil_eq (by decide) hr)
        · cases h
      · split at h
        · cases h
        · next tag mid ht =>
          obtain ⟨⟨front, rfl⟩, hname⟩ := readTag_eq ht (by simp)
          have hopen : ('<' :: (front ++ mid)).take (('<' :: (front ++ mid)).length - mid.length) =
              '<' :: front := by
            rw [← cons_append, length_append, Nat.add_sub_cancel, take_left]
          simp only [hopen] at h
          split at h
          · cases h
            exact ⟨'<' :: front, rfl, by simp, hname⟩
          · next kind _ =>
            split at h
            · next content _ hs =>
              cases h
              refine ⟨'<' :: front ++ content ++ ("</" ++ kind.name ++ ">").toList, ?_, ?_⟩
              · rw [readSection_eq hs]
                simp
              · simp [Token.Spells]
            · cases h
  · next hlt =>
    split at h
    · next hopens =>
      split at h
      · cases h
      · next inner _ hb =>
        split at h
        · next role hrole =>
          cases h
          obtain rfl : c = '\x7b' := opensLexeme_brace (by simpa using hlt) hopens
          exact ⟨'\x7b' :: inner ++ ['\x7d'], by simp [readBraces_eq hb], by simp, hrole⟩
        · cases h
    · cases h
      exact ⟨_, readText_eq c, by simp [Token.Spells]⟩

/-- Lexemes that follow each other in a source from one byte to another. -/
inductive Lexed (src : List Char) : Nat → List Lexeme → Nat → Prop where
  | nil (pos : Nat) : Lexed src pos [] pos
  | cons (l : Lexeme) (rest : List Lexeme) (stop : Nat) (text : List Char) : text ≠ [] →
      l.token.Spells text → Text.slice? src l.start l.stop = some text →
      Lexed src l.stop rest stop → Lexed src l.start (l :: rest) stop

theorem lexemes_lexed (front : List Char) (hp : byteLength front = pos) :
    ∃ stop, Lexed (front ++ cs) pos (lexemes pos cs).1 stop ∧
      ((lexemes pos cs).2 = none → stop = byteLength (front ++ cs)) := by
  fun_induction lexemes pos cs generalizing front with
  | case1 pos => exact ⟨pos, .nil pos, fun _ => by rw [append_nil, hp]⟩
  | case2 pos c rest f h => exact ⟨pos, .nil pos, nofun⟩
  | case3 pos c rest token after h stop p ih =>
    obtain ⟨text, htext, hspells⟩ := readLexeme_spells h
    have hstop : stop = byteLength (front ++ text) := by
      simp only [stop, htext, length_append, Nat.add_sub_cancel, take_left, hp,
        Text.byteLength_append]
    have hne : text ≠ [] := by
      rintro rfl
      have := readLexeme_length h
      simp [htext] at this
    have hsplit : front ++ c :: rest = (front ++ text) ++ after := by
      rw [htext, append_assoc]
    have hslice := Text.slice?_append front text after
    obtain ⟨last, hrest, hlast⟩ := ih (front ++ text) hstop.symm
    rw [hsplit]
    refine ⟨last, .cons ⟨token, pos, stop⟩ _ _ text hne hspells ?_ hrest, hlast⟩
    rw [hstop, ← hp]
    exact hslice

end ReactiveMarkup.Markup
