import ReactiveMarkup.Number.Binary
import ReactiveMarkup.Text.Offset

/-! # Tokens of a style sheet

A comment is a token, so that a verbatim copy can keep it.
-/

namespace ReactiveMarkup.Style

open Number (Binary)
open Text (Span)

/-- A number as written: its value, whether a sign was given, and its whole value if it has no
fraction and no exponent. -/
structure Numeric where
  value : Binary
  signed : Bool
  whole : Option Int
  deriving DecidableEq, Repr

inductive Bracket where
  | round
  | square
  | curly
  deriving DecidableEq, Repr

inductive Token where
  | ident (name : String)
  | atKeyword (name : String)
  | hash (name : String) (isId : Bool)
  | string (value : String)
  | badString
  | url (value : String)
  | badUrl
  | delim (c : Char)
  | number (n : Numeric)
  | percentage (n : Numeric)
  | dimension (n : Numeric) (unit : String)
  | blank (text : String)
  | comment (text : String)
  | colon
  | semicolon
  | comma
  | matchOp (c : Char)
  | cdo
  | cdc
  | function (name : String)
  | opening (b : Bracket)
  | closing (b : Bracket)
  deriving DecidableEq, Repr

structure Lexeme where
  token : Token
  span : Span
  deriving DecidableEq, Repr

/-! ## Characters -/

variable (c : Char) (cs : List Char)

def isSpace : Bool :=
  c == ' ' || c == '\t' || c == '\n' || c == '\r' || c.toNat == 0xC

def isNewline : Bool := c == '\n' || c == '\r' || c.toNat == 0xC

def replacement : Char := Char.ofNat 0xFFFD

def isNameStart : Bool :=
  c.isAlpha || c == '_' || c.toNat == 0 || 0x80 ≤ c.toNat

def isNameChar : Bool := isNameStart c || c.isDigit || c == '-'

def isHex : Bool :=
  c.isDigit || ('a' ≤ c && c ≤ 'f') || ('A' ≤ c && c ≤ 'F')

def hexValue : Nat :=
  if c.isDigit then c.toNat - '0'.toNat
  else if 'a' ≤ c then c.toNat - 'a'.toNat + 10
  else c.toNat - 'A'.toNat + 10

def startsEscape : List Char → Bool
  | '\\' :: c :: _ => !isNewline c
  | ['\\'] => true
  | _ => false

def startsName : List Char → Bool
  | '-' :: rest =>
    match rest with
    | c :: _ => isNameStart c || c == '-' || startsEscape rest
    | [] => false
  | c :: rest => isNameStart c || startsEscape (c :: rest)
  | [] => false

/-! ## Readers

Each reader returns what it read and the rest of the text. -/

def readEscape : Char × List Char :=
  let digits := (cs.take 6).takeWhile isHex
  if digits.isEmpty then
    match cs with
    | [] => (replacement, [])
    | c :: rest => (if c.toNat == 0 then replacement else c, rest)
  else
    let n := digits.foldl (fun n c => n * 16 + hexValue c) 0
    let rest :=
      match cs.drop digits.length with
      | '\r' :: '\n' :: rest => rest
      | c :: rest => if isSpace c then rest else c :: rest
      | [] => []
    let c := if n == 0 || 0x10FFFF < n || (0xD800 ≤ n && n ≤ 0xDFFF) then replacement
      else Char.ofNat n
    (c, rest)

def readNameChars : Nat → List Char → List Char × List Char
  | 0, cs => ([], cs)
  | fuel + 1, cs =>
    match cs with
    | [] => ([], [])
    | c :: rest =>
      if isNameChar c then
        let (name, rest) := readNameChars fuel rest
        ((if c.toNat == 0 then replacement else c) :: name, rest)
      else if startsEscape cs then
        let (c, rest) := readEscape rest
        let (name, rest) := readNameChars fuel rest
        (c :: name, rest)
      else ([], cs)

def readName : String × List Char :=
  let (name, rest) := readNameChars cs.length cs
  (String.ofList name, rest)

/-- The text of a string up to its closing quote; none when a newline interrupts it. -/
def readStringChars (quote : Char) : Nat → List Char → Option (List Char) × List Char
  | 0, cs => (some [], cs)
  | fuel + 1, cs =>
    match cs with
    | [] => (some [], [])
    | '\\' :: rest =>
      match rest with
      | [] => (some [], [])
      | '\r' :: '\n' :: rest => readStringChars quote fuel rest
      | c :: after =>
        if isNewline c then readStringChars quote fuel after
        else
          let (c, rest) := readEscape rest
          let (text, rest) := readStringChars quote fuel rest
          (text.map (c :: ·), rest)
    | c :: rest =>
      if c == quote then (some [], rest)
      else if isNewline c then (none, cs)
      else
        let (text, rest) := readStringChars quote fuel rest
        (text.map ((if c.toNat == 0 then replacement else c) :: ·), rest)

def readString (quote : Char) (cs : List Char) : Token × List Char :=
  match readStringChars quote cs.length cs with
  | (some text, rest) => (.string (String.ofList text), rest)
  | (none, rest) => (.badString, rest)

def skipBadUrl : List Char → List Char
  | [] => []
  | ')' :: rest => rest
  | '\\' :: _ :: rest => skipBadUrl rest
  | _ :: rest => skipBadUrl rest

def isUnprintable : Bool :=
  (0x1 ≤ c.toNat && c.toNat ≤ 0x8) || c.toNat == 0xB || (0xE ≤ c.toNat && c.toNat ≤ 0x1F) ||
    c.toNat == 0x7F

def readUrlChars : Nat → List Char → Option (List Char) × List Char
  | 0, cs => (some [], cs)
  | fuel + 1, cs =>
    match cs with
    | [] => (some [], [])
    | ')' :: rest => (some [], rest)
    | c :: rest =>
      if isSpace c then
        match rest.dropWhile isSpace with
        | [] => (some [], [])
        | ')' :: rest => (some [], rest)
        | rest => (none, skipBadUrl rest)
      else if c == '"' || c == '\x27' || c == '(' || isUnprintable c then (none, skipBadUrl rest)
      else if c == '\\' then
        if startsEscape cs then
          let (c, rest) := readEscape rest
          let (text, rest) := readUrlChars fuel rest
          (text.map (c :: ·), rest)
        else (none, skipBadUrl rest)
      else
        let (text, rest) := readUrlChars fuel rest
        (text.map ((if c.toNat == 0 then replacement else c) :: ·), rest)

def toLower (s : String) : String := String.ofList (s.toList.map Char.toLower)

def readIdentLike : Token × List Char :=
  match readName cs with
  | (name, '(' :: rest) =>
    if toLower name == "url" then
      match rest.dropWhile isSpace with
      | c :: after =>
        if c == '"' || c == '\x27' then (.function name, rest)
        else
          match readUrlChars (c :: after).length (c :: after) with
          | (some text, rest) => (.url (String.ofList text), rest)
          | (none, rest) => (.badUrl, rest)
      | [] => (.url "", [])
    else (.function name, rest)
  | (name, rest) => (.ident name, rest)

def digitsValue (ds : List Char) : Nat := ds.foldl (fun n c => n * 10 + (c.toNat - '0'.toNat)) 0

def clampWhole (n : Int) : Int := max (-2147483648) (min 2147483647 n)

def readExponent? : Option (Int × List Char) :=
  match cs with
  | e :: rest =>
    if e == 'e' || e == 'E' then
      let (negative, rest) := match rest with
        | '-' :: r => (true, r)
        | '+' :: r => (false, r)
        | r => (false, r)
      let ds := rest.takeWhile Char.isDigit
      if ds.isEmpty then none
      else
        let n : Int := digitsValue ds
        some (if negative then -n else n, rest.drop ds.length)
    else none
  | [] => none

def readNumeric : Token × List Char :=
  let (signed, negative, body) := match cs with
    | '-' :: r => (true, true, r)
    | '+' :: r => (true, false, r)
    | r => (false, false, r)
  let whole := body.takeWhile Char.isDigit
  let afterWhole := body.drop whole.length
  let fraction := match afterWhole with
    | '.' :: r => r.takeWhile Char.isDigit
    | _ => []
  let afterFraction := if fraction.isEmpty then afterWhole else afterWhole.drop (fraction.length + 1)
  let (exp, exponent, rest) := match readExponent? afterFraction with
    | some (e, r) => (true, e, r)
    | none => (false, 0, afterFraction)
  let mantissa := digitsValue (whole ++ fraction)
  let bounded := max (-400) (min 400 exponent)
  let value := Binary.ofDecimal Number.single negative mantissa (bounded - fraction.length)
  let wholeValue : Option Int :=
    if fraction.isEmpty && !exp then
      some (clampWhole (if negative then -(mantissa : Int) else mantissa))
    else none
  let n : Numeric := { value, signed, whole := wholeValue }
  match rest with
  | '%' :: r => (.percentage n, r)
  | r =>
    if startsName r then
      let (unit, r) := readName r
      (.dimension n unit, r)
    else (.number n, r)

def readComment : List Char → List Char × List Char
  | [] => ([], [])
  | '*' :: '/' :: rest => ([], rest)
  | c :: rest =>
    let (text, rest) := readComment rest
    (c :: text, rest)

def startsDigit : List Char → Bool
  | c :: _ => c.isDigit
  | [] => false

def startsDecimal : List Char → Bool
  | '.' :: rest => startsDigit rest
  | cs => startsDigit cs

def readToken (rest : List Char) : Token × List Char :=
  let cs := c :: rest
  if isSpace c then (.blank (String.ofList (cs.takeWhile isSpace)), cs.dropWhile isSpace)
  else if c.isDigit then readNumeric cs
  else if isNameStart c then readIdentLike cs
  else
    match c, rest with
    | '"', _ => readString '"' rest
    | '\x27', _ => readString '\x27' rest
    | '#', _ =>
      if startsName rest then
        let (name, r) := readName rest
        (.hash name true, r)
      else if startsDigit rest || rest.head? == some '-' then
        let (name, r) := readName rest
        (.hash name false, r)
      else (.delim '#', rest)
    | '(', _ => (.opening .round, rest)
    | ')', _ => (.closing .round, rest)
    | '[', _ => (.opening .square, rest)
    | ']', _ => (.closing .square, rest)
    | '\x7b', _ => (.opening .curly, rest)
    | '\x7d', _ => (.closing .curly, rest)
    | '+', _ => if startsDecimal rest then readNumeric cs else (.delim '+', rest)
    | '-', '-' :: '>' :: r => (.cdc, r)
    | '-', _ =>
      if startsDecimal rest then readNumeric cs
      else if startsName cs then readIdentLike cs
      else (.delim '-', rest)
    | '.', _ => if startsDigit rest then readNumeric cs else (.delim '.', rest)
    | '/', '*' :: r =>
      let (text, r) := readComment r
      (.comment (String.ofList text), r)
    | ':', _ => (.colon, rest)
    | ';', _ => (.semicolon, rest)
    | ',', _ => (.comma, rest)
    | '<', '!' :: '-' :: '-' :: r => (.cdo, r)
    | '@', _ =>
      if startsName rest then
        let (name, r) := readName rest
        (.atKeyword name, r)
      else (.delim '@', rest)
    | '\\', _ => if startsEscape cs then readIdentLike cs else (.delim '\\', rest)
    | '~', '=' :: r | '|', '=' :: r | '^', '=' :: r | '$', '=' :: r | '*', '=' :: r =>
      (.matchOp c, r)
    | _, _ => (.delim c, rest)

def lexemesFrom (pos : Nat) (cs : List Char) : List Lexeme :=
  match cs with
  | [] => []
  | c :: tail =>
    let (token, rest) := readToken c tail
    if _h : rest.length < (c :: tail).length then
      let stop := pos + (Text.byteLength (c :: tail) - Text.byteLength rest)
      { token, span := ⟨pos, stop⟩ } :: lexemesFrom stop rest
    else []
termination_by cs.length
decreasing_by exact _h

end ReactiveMarkup.Style
