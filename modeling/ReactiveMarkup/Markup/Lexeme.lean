import ReactiveMarkup.Markup.Header
import ReactiveMarkup.Markup.Tag

/-! # Lexemes

The lexemes cover the source without gaps; where one cannot be completed the list ends with the
fault.
-/

namespace ReactiveMarkup.Markup

inductive Token where
  | text (value : String)
  | comment (content : String)
  | raw (kind : RawKind) (tag : OpenTag) (openTag content : String)
  | openTag (tag : OpenTag) (text : String)
  | closeTag (name : String)
  | control (role : Control) (header : String)

structure Lexeme where
  token : Token
  start : Nat
  stop : Nat

def readUntil (needle : List Char) : List Char → Option (List Char × List Char)
  | [] => none
  | c :: cs =>
    if needle.isPrefixOf (c :: cs) then some ([], cs.drop (needle.length - 1))
    else (readUntil needle cs).map fun p => (c :: p.1, p.2)

theorem eq_needle_append {cs : List Char} (hp : needle.isPrefixOf (c :: cs) = true)
    (hn : needle ≠ []) : c :: cs = needle ++ cs.drop (needle.length - 1) := by
  obtain ⟨t, ht⟩ := List.isPrefixOf_iff_prefix.mp hp
  cases needle with
  | nil => exact absurd rfl hn
  | cons d ds =>
    rw [List.cons_append, List.cons.injEq] at ht
    obtain ⟨rfl, rfl⟩ := ht
    simp

theorem readUntil_eq {needle cs front rest : List Char} (hn : needle ≠ [])
    (h : readUntil needle cs = some (front, rest)) : cs = front ++ needle ++ rest := by
  induction cs generalizing front with
  | nil => simp [readUntil] at h
  | cons c cs ih =>
    rw [readUntil] at h
    split at h
    · next hp =>
      cases h
      exact eq_needle_append hp hn
    · obtain ⟨⟨f, r⟩, hr, hp⟩ := Option.map_eq_some_iff.mp h
      cases hp
      rw [ih hr]
      rfl

/-- Raw content up to `endTag`, which does not count inside quotes. `quote` is the open quote and
`escaped` tells that a backslash stands just before. -/
def readRaw (endTag : List Char) (quote : Option Char) (escaped : Bool) :
    List Char → Option (List Char × List Char)
  | [] => none
  | c :: cs =>
    match quote with
    | some q =>
      let closes := c == q && !escaped
      (readRaw endTag (if closes then none else some q) (c == '\\' && !escaped) cs).map
        fun p => (c :: p.1, p.2)
    | none =>
      if isQuote c then
        (readRaw endTag (some c) false cs).map fun p => (c :: p.1, p.2)
      else if endTag.isPrefixOf (c :: cs) then some ([], cs.drop (endTag.length - 1))
      else (readRaw endTag none false cs).map fun p => (c :: p.1, p.2)

theorem readRaw_eq {escaped : Bool} (hn : endTag ≠ [])
    (h : readRaw endTag quote escaped cs = some (front, rest)) : cs = front ++ endTag ++ rest := by
  induction cs generalizing front quote escaped with
  | nil => simp [readRaw] at h
  | cons c cs ih =>
    have step : ∀ {q e}, (readRaw endTag q e cs).map (fun p => (c :: p.1, p.2)) =
        some (front, rest) → c :: cs = front ++ endTag ++ rest := by
      intro q e hm
      obtain ⟨⟨f, r⟩, hr, hp⟩ := Option.map_eq_some_iff.mp hm
      cases hp
      rw [ih hr]
      rfl
    unfold readRaw at h
    split at h
    · exact step h
    · split at h
      · exact step h
      · split at h
        · next hp =>
          cases h
          exact eq_needle_append hp hn
        · exact step h

/-- Content of braces up to the one that closes the outermost of `depth` open ones. -/
def readBraces (quote : Option Char) (depth : Nat) : List Char → Option (List Char × List Char)
  | [] => none
  | c :: cs =>
    let keep (p : List Char × List Char) : List Char × List Char := (c :: p.1, p.2)
    match quote with
    | some q => (readBraces (if c == q then none else some q) depth cs).map keep
    | none =>
      if isQuote c then (readBraces (some c) depth cs).map keep
      else if c == '\x7b' then (readBraces none (depth + 1) cs).map keep
      else if c == '\x7d' then
        if depth ≤ 1 then some ([], cs) else (readBraces none (depth - 1) cs).map keep
      else (readBraces none depth cs).map keep

theorem readBraces_eq (h : readBraces quote depth cs = some (front, rest)) :
    cs = front ++ '\x7d' :: rest := by
  induction cs generalizing front quote depth with
  | nil => simp [readBraces] at h
  | cons c cs ih =>
    have step : ∀ {q d}, (readBraces q d cs).map (fun p => (c :: p.1, p.2)) =
        some (front, rest) → c :: cs = front ++ '\x7d' :: rest := by
      intro q d hm
      obtain ⟨⟨f, r⟩, hr, hp⟩ := Option.map_eq_some_iff.mp hm
      cases hp
      rw [ih hr]
      rfl
    unfold readBraces at h
    split at h
    · exact step h
    · split at h
      · exact step h
      · split at h
        · exact step h
        · split at h
          · next hc =>
            split at h
            · cases h
              rw [eq_of_beq hc]
              rfl
            · exact step h
          · exact step h

def opensLexeme : List Char → Bool
  | '<' :: _ => true
  | '\x7b' :: c :: _ => c == '#' || c == '/' || c == ':' || c == '@'
  | _ => false

def readText : List Char → List Char × List Char
  | [] => ([], [])
  | c :: cs =>
    if opensLexeme cs then ([c], cs)
    else
      match cs with
      | [] => ([c], [])
      | d :: ds =>
        let p := readText (d :: ds)
        (c :: p.1, p.2)

theorem readText_eq (c : Char) : c :: cs = (readText (c :: cs)).1 ++ (readText (c :: cs)).2 := by
  induction cs generalizing c with
  | nil => rfl
  | cons d ds ih =>
    unfold readText
    split
    · rfl
    · rw [List.cons_append, ← ih d]

theorem readText_ne_nil : (readText (c :: cs)).1 ≠ [] := by
  unfold readText
  repeat' split
  all_goals nofun

/-- The name in a close tag: each byte stands for the character of that code. -/
def closeName (cs : List Char) : String :=
  Text.trim (String.ofList ((String.ofList cs).toUTF8.toList.map fun b => Char.ofNat b.toNat))

def rawKind? : String → Option RawKind
  | "script" => some .script
  | "style" => some .style
  | "template" => some .template
  | _ => none

/-- Content of a raw section and the rest after its close tag. Only the text of a style ignores
quotes. -/
def readSection (kind : RawKind) (cs : List Char) : Option (List Char × List Char) :=
  let endTag := ("</" ++ kind.name ++ ">").toList
  match kind with
  | .style => readUntil endTag cs
  | _ => readRaw endTag none false cs

def openSection (kind : RawKind) (start : Nat) : Fault :=
  match kind with
  | .style => .openStyle start
  | _ => .unfinished kind.name start

def readLexeme (pos : Nat) (c : Char) (rest : List Char) :
    Except Fault (Token × List Char) :=
  let cs := c :: rest
  if c == '<' then
    if "<!--".toList.isPrefixOf cs then
      match readUntil "-->".toList cs with
      | some (front, after) =>
        .ok (.comment (String.ofList (front ++ "-->".toList)), after)
      | none => .error (.openComment pos)
    else if rest.head? == some '/' then
      match readUntil ['>'] rest with
      | some (front, after) => .ok (.closeTag (closeName front.tail), after)
      | none => .error (.unfinished "close tag" pos)
    else
      match readTag pos {} (pos + 1) rest with
      | .error f => .error f
      | .ok (tag, after) =>
        let openTag := String.ofList (cs.take (cs.length - after.length))
        match rawKind? tag.name with
        | none => .ok (.openTag tag openTag, after)
        | some kind =>
          match readSection kind after with
          | some (content, after) => .ok (.raw kind tag openTag (String.ofList content), after)
          | none => .error (openSection kind (pos + openTag.utf8ByteSize))
  else if opensLexeme cs then
    match readBraces none 1 rest with
    | none => .error (.unfinished "binding" pos)
    | some (inner, after) =>
      let header := String.ofList inner
      match Control.ofHeader? header with
      | some role => .ok (.control role header, after)
      | none => .error (.unknownControl header pos (pos + header.utf8ByteSize + 2))
  else
    let (front, after) := readText cs
    .ok (.text (String.ofList front), after)

theorem readSection_eq (h : readSection kind cs = some (content, rest)) :
    cs = content ++ ("</" ++ kind.name ++ ">").toList ++ rest := by
  have hn : ("</" ++ kind.name ++ ">").toList ≠ [] := by cases kind <;> decide
  cases kind with
  | script => exact readRaw_eq hn h
  | style => exact readUntil_eq hn h
  | template => exact readRaw_eq hn h

theorem readLexeme_length {pos : Nat} {c : Char} {rest after : List Char} {token : Token}
    (h : readLexeme pos c rest = .ok (token, after)) : after.length < (c :: rest).length := by
  -- what stands before the rest is not empty
  have shorter {cs front needle after : List Char} (hn : needle ≠ [])
      (heq : cs = front ++ needle ++ after) : after.length < cs.length := by
    have := List.length_pos_iff.mpr hn
    simp only [heq, List.length_append]
    omega
  unfold readLexeme at h
  dsimp only at h
  split at h
  · split at h
    · split at h <;> cases h
      next hr => exact shorter (by decide) (readUntil_eq (by decide) hr)
    · split at h
      · split at h <;> cases h
        next hr => exact Nat.lt_succ_of_lt (shorter (by decide) (readUntil_eq (by decide) hr))
      · split at h
        · cases h
        · next ht =>
          have htag := readTag_length ht
          split at h
          · cases h
            exact Nat.lt_succ_of_lt htag
          · next kind _ =>
            split at h <;> cases h
            next hs =>
              have := shorter (by cases kind <;> decide) (readSection_eq hs)
              exact Nat.lt_succ_of_lt (Nat.lt_trans this htag)
  · split at h
    · split at h
      · cases h
      · next hb =>
        split at h <;> cases h
        exact Nat.lt_succ_of_lt (@shorter _ _ ['\x7d'] _ nofun (by simpa using readBraces_eq hb))
    · cases h
      exact @shorter _ [] _ _ readText_ne_nil (readText_eq c)

def lexemes (pos : Nat) : List Char → List Lexeme × Option Fault
  | [] => ([], none)
  | c :: rest =>
    match _h : readLexeme pos c rest with
    | .error f => ([], some f)
    | .ok (token, after) =>
      let stop := pos + Text.byteLength ((c :: rest).take ((c :: rest).length - after.length))
      let p := lexemes stop after
      ({ token, start := pos, stop } :: p.1, p.2)
termination_by cs => cs.length
decreasing_by exact readLexeme_length _h

end ReactiveMarkup.Markup
