import ReactiveMarkup.Reactive.Template

/-! # Tokens of page markup -/

namespace ReactiveMarkup.Reactive.Fragment

inductive Token where
  | text (s : List Char)
  | comment (s : List Char)
  | start (name : String) (attributes : List (String × String)) (closed : Bool)
  | stop (name : String)
  deriving DecidableEq, Repr

def lowerAscii (cs : List Char) : String := String.ofList (cs.map Char.toLower)

def namedCharacters : List (String × Nat) :=
  [("amp", 0x26), ("lt", 0x3C), ("gt", 0x3E), ("quot", 0x22), ("apos", 0x27), ("nbsp", 0xA0),
    ("copy", 0xA9), ("reg", 0xAE), ("deg", 0xB0), ("plusmn", 0xB1), ("middot", 0xB7),
    ("laquo", 0xAB), ("raquo", 0xBB), ("times", 0xD7), ("divide", 0xF7), ("eacute", 0xE9),
    ("ndash", 0x2013), ("mdash", 0x2014), ("lsquo", 0x2018), ("rsquo", 0x2019), ("ldquo", 0x201C),
    ("rdquo", 0x201D), ("bull", 0x2022), ("hellip", 0x2026), ("euro", 0x20AC), ("trade", 0x2122),
    ("larr", 0x2190), ("uarr", 0x2191), ("rarr", 0x2192), ("darr", 0x2193)]

def looseNames : List String :=
  ["amp", "lt", "gt", "quot", "nbsp", "copy", "reg", "deg", "plusmn", "middot", "laquo", "raquo",
    "times", "divide", "eacute"]

def hexValue? (c : Char) : Option Nat :=
  let c := c.toLower
  if c.isDigit then some (c.toNat - '0'.toNat)
  else if 'a' ≤ c && c ≤ 'f' then some (c.toNat - 'a'.toNat + 10)
  else none

def characterOf (n : Nat) : Char :=
  if n = 0 ∨ 0x10FFFF < n ∨ (0xD800 ≤ n ∧ n ≤ 0xDFFF) then Char.ofNat 0xFFFD else Char.ofNat n

def dropSemicolon : List Char → List Char
  | ';' :: rest => rest
  | cs => cs

def readNumeric? (base : Nat) (cs : List Char) : Option (Char × List Char) :=
  let isDigit (c : Char) : Bool := (hexValue? c).any (· < base)
  let digits := cs.takeWhile isDigit
  if digits.isEmpty then none
  else
    let n := digits.foldl (fun n c => min 0x110000 (n * base + (hexValue? c).getD 0)) 0
    some (characterOf n, dropSemicolon (cs.dropWhile isDigit))

/-- A name without its semicolon: the longest loose name that the text starts with. Within an
attribute it may not run on into a letter, a digit or an equals sign. -/
def readLooseName? (inAttribute : Bool) (cs : List Char) : Option (Char × List Char) :=
  (looseNames.find? fun n => n.toList.isPrefixOf cs).bind fun n =>
    let rest := cs.drop n.length
    let runsOn := rest.head?.any fun c => c.isAlphanum || c == '='
    if inAttribute && runsOn then none
    else (namedCharacters.lookup n).map fun code => (Char.ofNat code, rest)

def readReference? (inAttribute : Bool) : List Char → Option (Char × List Char)
  | '#' :: 'x' :: rest | '#' :: 'X' :: rest => readNumeric? 16 rest
  | '#' :: rest => readNumeric? 10 rest
  | cs =>
    let name := cs.takeWhile Char.isAlphanum
    match cs.drop name.length, namedCharacters.lookup (String.ofList name) with
    | ';' :: rest, some code => some (Char.ofNat code, rest)
    | _, _ => readLooseName? inAttribute cs

def decodeFrom (inAttribute : Bool) : Nat → List Char → List Char
  | 0, cs => cs
  | _ + 1, [] => []
  | n + 1, '&' :: rest =>
    match readReference? inAttribute rest with
    | some (c, rest) => c :: decodeFrom inAttribute n rest
    | none => '&' :: decodeFrom inAttribute n rest
  | n + 1, c :: rest => c :: decodeFrom inAttribute n rest

def decode (inAttribute : Bool) (cs : List Char) : List Char :=
  decodeFrom inAttribute cs.length cs

def normalizeLines : List Char → List Char
  | '\r' :: '\n' :: rest => '\n' :: normalizeLines rest
  | '\r' :: rest => '\n' :: normalizeLines rest
  | c :: rest => c :: normalizeLines rest
  | [] => []

def splitAtQuote (q : Char) (cs : List Char) : List Char × List Char :=
  (cs.takeWhile (· != q), (cs.dropWhile (· != q)).drop 1)

def readAttributeValue (cs : List Char) : String × List Char :=
  let cs := cs.dropWhile Text.isTagBlank
  let bare (c : Char) : Bool := !Text.isTagBlank c && c != '>'
  let (value, rest) := match cs with
    | '"' :: tail => splitAtQuote '"' tail
    | '\x27' :: tail => splitAtQuote '\x27' tail
    | _ => (cs.takeWhile bare, cs.dropWhile bare)
  (String.ofList (decode true value), rest)

def readAttribute (cs : List Char) : (String × String) × List Char :=
  let inName (c : Char) : Bool := !Text.isTagBlank c && c != '/' && c != '>' && c != '='
  let (head, tail) := match cs with
    | '=' :: rest => (['='], rest)
    | _ => ([], cs)
  let name := lowerAscii (head ++ tail.takeWhile inName)
  let rest := tail.dropWhile inName
  match rest.dropWhile Text.isTagBlank with
  | '=' :: value =>
    let (v, rest) := readAttributeValue value
    ((name, v), rest)
  | _ => ((name, ""), rest)

/-- The attributes of a tag up to its end: whether it closes itself, and what follows. Of equal
names the first counts. -/
def readAttributes : Nat → List (String × String) → List Char →
    Option (List (String × String) × Bool × List Char)
  | 0, _, _ => none
  | n + 1, found, cs =>
    match cs.dropWhile Text.isTagBlank with
    | [] => none
    | '>' :: rest => some (found, false, rest)
    | '/' :: '>' :: rest => some (found, true, rest)
    | '/' :: rest => readAttributes n found rest
    | rest =>
      let (a, rest) := readAttribute rest
      readAttributes n (if found.any (·.1 == a.1) then found else found ++ [a]) rest

def isTagNameChar (c : Char) : Bool := !Text.isTagBlank c && c != '/' && c != '>'

def splitAtMark (mark : List Char) : List Char → List Char × List Char
  | [] => ([], [])
  | c :: rest =>
    if mark.isPrefixOf (c :: rest) then ([], (c :: rest).drop mark.length)
    else
      let (before, after) := splitAtMark mark rest
      (c :: before, after)

def readTag? : List Char → Option (Option Token × List Char)
  | '!' :: '-' :: '-' :: rest =>
    match rest with
    | '>' :: tail => some (some (.comment []), tail)
    | '-' :: '>' :: tail => some (some (.comment []), tail)
    | _ =>
      let (body, tail) := splitAtMark "-->".toList rest
      some (some (.comment body), tail)
  | '!' :: rest | '?' :: rest =>
    let (body, tail) := splitAtQuote '>' rest
    some (some (.comment body), tail)
  | '/' :: c :: rest =>
    if c.isAlpha then
      let name := (c :: rest).takeWhile isTagNameChar
      match readAttributes (rest.length + 1) [] ((c :: rest).drop name.length) with
      | some (_, _, tail) => some (some (.stop (lowerAscii name)), tail)
      | none => some (none, [])
    else if c == '>' then some (none, rest)
    else
      let (body, tail) := splitAtQuote '>' (c :: rest)
      some (some (.comment body), tail)
  | c :: rest =>
    if c.isAlpha then
      let name := (c :: rest).takeWhile isTagNameChar
      match readAttributes (rest.length + 1) [] ((c :: rest).drop name.length) with
      | some (attributes, closed, tail) =>
        some (some (.start (lowerAscii name) attributes closed), tail)
      | none => some (none, [])
    else none
  | [] => none

/-- Elements whose content is text without tags; in the second list references count. -/
def rawElements : List String :=
  ["script", "style", "xmp", "iframe", "noembed", "noframes", "noscript"]

def textElements : List String := ["textarea", "title"]

def splitAtClose (name : List Char) : List Char → List Char × List Char
  | [] => ([], [])
  | c :: rest =>
    let close := '<' :: '/' :: name
    let after := (c :: rest).drop close.length
    let ends := after.head?.any fun c => !isTagNameChar c
    if (close == ((c :: rest).take close.length).map Char.toLower) && ends then ([], c :: rest)
    else
      let (before, tail) := splitAtClose name rest
      (c :: before, tail)

def readRaw (t : Token) (cs : List Char) : List Token × List Char :=
  match t with
  | .start name _ _ =>
    if rawElements.contains name then
      let (body, rest) := splitAtClose name.toList cs
      ([.text body], rest)
    else if textElements.contains name then
      let (body, rest) := splitAtClose name.toList cs
      ([.text (decode false body)], rest)
    else ([], cs)
  | _ => ([], cs)

def tokensFrom : Nat → List Char → List Token
  | 0, _ => []
  | _ + 1, [] => []
  | n + 1, '<' :: rest =>
    match readTag? rest with
    | none => .text ['<'] :: tokensFrom n rest
    | some (none, rest) => tokensFrom n rest
    | some (some t, rest) =>
      let (raw, rest) := readRaw t rest
      t :: raw ++ tokensFrom n rest
  | n + 1, c :: rest =>
    let run := (c :: rest).takeWhile (· != '<')
    .text (decode false run) :: tokensFrom n ((c :: rest).drop run.length)

def tokensOf (s : String) : List Token :=
  let cs := normalizeLines s.toList
  tokensFrom (cs.length + 1) cs

end ReactiveMarkup.Reactive.Fragment
