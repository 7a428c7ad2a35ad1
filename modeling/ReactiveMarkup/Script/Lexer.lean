import ReactiveMarkup.Script.Token
import ReactiveMarkup.Text.Offset

/-! # Reading script tokens

Each reader takes the text from its first character on. A reader that meets malformed text has no
result.
-/

namespace ReactiveMarkup.Script

def isLineEnd (c : Char) : Bool :=
  c == '\n' || c == '\r' || c.toNat == 0x2028 || c.toNat == 0x2029

def isSpace (c : Char) : Bool :=
  let n := c.toNat
  n == 0x20 || n == 0x9 || n == 0xB || n == 0xC || n == 0xA0 || n == 0xFEFF || n == 0x1680 ||
    (0x2000 ≤ n && n ≤ 0x200A) || n == 0x202F || n == 0x205F || n == 0x3000

/-- The comments met before a token. A comment on the line of the token before it belongs to that
token and is forgotten when the line ends. -/
structure Trivia where
  newline : Bool := false
  comments : List Comment := []

namespace Trivia

def endLine (t : Trivia) : Trivia :=
  if t.newline then
    match t.comments with
    | c :: rest => { newline := true, comments := { c with beforeNewline := true } :: rest }
    | [] => t
  else { newline := true, comments := [] }

def addBlock (t : Trivia) (text : String) : Trivia :=
  { t with comments :=
      { text, isLine := false, afterNewline := t.newline, beforeNewline := false } :: t.comments }

/-- A line comment, with the line end that closes it. `keep` tells that the token before leaves
its line open. -/
def addLine (t : Trivia) (keep : Bool) (text : String) : Trivia :=
  if !t.newline && !keep then { newline := true, comments := [] }
  else
    { newline := true
      comments :=
        { text, isLine := true, afterNewline := t.newline, beforeNewline := true } :: t.comments }

end Trivia

structure Skipped where
  trivia : Trivia
  broken : Bool
  pos : Nat
  rest : List Char

inductive Gap where
  | blank
  | line (seen : List Char)
  | block (seen : List Char)

/-- Skips blanks and comments. `broken` tells that a line ended, in a comment or outside. -/
def skipGap (keep : Bool) (gap : Gap) (t : Trivia) (broken : Bool) (pos : Nat) :
    List Char → Option Skipped
  | [] =>
    match gap with
    | .blank => some { trivia := t, broken, pos, rest := [] }
    | .line seen =>
      some { trivia := t.addLine keep (String.ofList seen.reverse), broken := true, pos, rest := [] }
    | .block _ => none
  | c :: cs =>
    let next := pos + c.utf8Size
    match gap with
    | .line seen =>
      if isLineEnd c then
        skipGap keep .blank (t.addLine keep (String.ofList seen.reverse)) true next cs
      else skipGap keep (.line (c :: seen)) t broken next cs
    | .block seen =>
      if c == '/' && seen.head? == some '*' && 2 < seen.length then
        skipGap keep .blank (t.addBlock (String.ofList (c :: seen).reverse)) broken next cs
      else skipGap keep (.block (c :: seen)) t (broken || isLineEnd c) next cs
    | .blank =>
      if isLineEnd c then skipGap keep .blank t.endLine true next cs
      else if isSpace c then skipGap keep .blank t broken next cs
      else if c == '/' && cs.head? == some '/' then skipGap keep (.line [c]) t broken next cs
      else if c == '/' && cs.head? == some '*' then skipGap keep (.block [c]) t broken next cs
      else some { trivia := t, broken, pos, rest := c :: cs }

def digitValue (c : Char) : Nat :=
  if c.isDigit then c.toNat - '0'.toNat
  else if 'a' ≤ c ∧ c ≤ 'f' then c.toNat - 'a'.toNat + 10
  else if 'A' ≤ c ∧ c ≤ 'F' then c.toNat - 'A'.toNat + 10
  else 36

def isHexDigit (c : Char) : Bool := digitValue c < 16

variable (cs : List Char)

def valueIn (base : Nat) (ds : List Char) : Nat := ds.foldl (fun n d => n * base + digitValue d) 0

def readCodePoint : List Char → Option (Nat × List Char)
  | '\x7b' :: cs =>
    let ds := cs.takeWhile isHexDigit
    match cs.drop ds.length with
    | '\x7d' :: rest =>
      let n := valueIn 16 ds
      if ds.isEmpty || 0x10FFFF < n then none else some (n, rest)
    | _ => none
  | cs =>
    let ds := cs.take 4
    if ds.length == 4 && ds.all isHexDigit then some (valueIn 16 ds, cs.drop 4) else none

/-- The rest of a word whose characters so far are `seen`, in reverse; `fuel` bounds its length. -/
def readWord (fuel : Nat) (seen : List Char) (escaped : Bool) (cs : List Char) :
    Option (String × Bool × List Char) :=
  match fuel with
  | 0 => none
  | fuel + 1 =>
    let fits (c : Char) : Bool := if seen.isEmpty then Text.isNameStart c else Text.isNameContinue c
    match cs with
    | '\\' :: 'u' :: rest =>
      match readCodePoint rest with
      | some (n, rest) =>
        let c := Char.ofNat n
        if fits c then readWord fuel (c :: seen) true rest else none
      | none => none
    | '\\' :: _ => none
    | c :: rest =>
      if fits c then readWord fuel (c :: seen) escaped rest
      else if seen.isEmpty then none
      else some (String.ofList seen.reverse, escaped, c :: rest)
    | [] => if seen.isEmpty then none else some (String.ofList seen.reverse, escaped, [])

def readDigits (fits : Char → Bool) (cs : List Char) : Option (List Char × List Char) :=
  let run := cs.takeWhile fun c => fits c || c == '_'
  let wellPlaced := run.head? != some '_' && run.getLast? != some '_' &&
    !(run.zip run.tail).any (· == ('_', '_'))
  if run.isEmpty || !wellPlaced then none
  else some (run.filter (· != '_'), cs.drop run.length)

def endsNumber : List Char → Bool
  | [] => true
  | c :: _ => !(Text.isNameStart c || c.isDigit || c == '\\')

def radixNumber (base : Nat) (cs : List Char) : Option (Lexeme × List Char) := do
  let (ds, rest) ← readDigits (fun c => digitValue c < base) cs
  match rest with
  | 'n' :: rest =>
    if endsNumber rest then
      some (.bigint (toString (valueIn base ds)), rest)
    else none
  | rest =>
    if endsNumber rest then some (.number (Number.Binary.ofNat Number.double (valueIn base ds)), rest)
    else none

def readExponent : Option (Int × List Char) :=
  match cs with
  | c :: rest =>
    if c == 'e' || c == 'E' then
      match rest with
      | '+' :: rest => (readDigits Char.isDigit rest).map fun p => ((valueIn 10 p.1 : Int), p.2)
      | '-' :: rest => (readDigits Char.isDigit rest).map fun p => (-(valueIn 10 p.1 : Int), p.2)
      | rest => (readDigits Char.isDigit rest).map fun p => ((valueIn 10 p.1 : Int), p.2)
    else some (0, cs)
  | [] => some (0, [])

def readFraction : Option (List Char × List Char) :=
  if cs.head?.any Char.isDigit then readDigits Char.isDigit cs
  else if cs.head? == some '_' then none
  else some ([], cs)

/-- A decimal number whose whole digits are read; `cs` starts at the point or exponent, if any. -/
def decimalNumber (whole : List Char) (cs : List Char) : Option (Lexeme × List Char) := do
  let (fraction, cs) ← match cs with
    | '.' :: rest => readFraction rest
    | _ => some ([], cs)
  let (exp, cs) ← readExponent cs
  if endsNumber cs then
    let mantissa := valueIn 10 (whole ++ fraction)
    -- Beyond these bounds every mantissa of this text overflows or vanishes.
    let bound : Int := 400 + (whole.length + fraction.length : Nat)
    let e := max (-2 * bound) (min (2 * bound) (exp - fraction.length))
    some (.number (Number.Binary.ofDecimal Number.double false mantissa e), cs)
  else none

def readNumber : Option (Lexeme × List Char) :=
  match cs with
  | '0' :: x :: rest =>
    if x == 'x' || x == 'X' then radixNumber 16 rest
    else if x == 'o' || x == 'O' then radixNumber 8 rest
    else if x == 'b' || x == 'B' then radixNumber 2 rest
    else if x == '_' then none
    else if x.isDigit then
      let ds := (x :: rest).takeWhile Char.isDigit
      let rest := (x :: rest).drop ds.length
      if ds.all fun d => digitValue d < 8 then
        if endsNumber rest then
          some (.number (Number.Binary.ofNat Number.double (valueIn 8 ds)), rest)
        else none
      else decimalNumber ('0' :: ds) rest
    else if x == 'n' then
      if endsNumber rest then some (.bigint "0", rest) else none
    else decimalNumber ['0'] (x :: rest)
  | '.' :: _ => decimalNumber [] cs
  | _ => do
    let (ds, rest) ← readDigits Char.isDigit cs
    match rest with
    | 'n' :: rest => if endsNumber rest then some (.bigint (String.ofList ds), rest) else none
    | rest => decimalNumber ds rest

def joinSurrogates : List Nat → List Nat
  | h :: l :: rest =>
    if 0xD800 ≤ h ∧ h ≤ 0xDBFF ∧ 0xDC00 ≤ l ∧ l ≤ 0xDFFF then
      (0x10000 + (h - 0xD800) * 0x400 + (l - 0xDC00)) :: joinSurrogates rest
    else h :: joinSurrogates (l :: rest)
  | rest => rest

/-- Code points that an escape after a backslash stands for, and the rest. An octal escape has up
to three digits and stays below 256. -/
def readEscape : List Char → Option (List Nat × List Char)
  | [] => none
  | c :: cs =>
    if c == 'n' then some ([0xA], cs)
    else if c == 'r' then some ([0xD], cs)
    else if c == 't' then some ([0x9], cs)
    else if c == 'b' then some ([0x8], cs)
    else if c == 'v' then some ([0xB], cs)
    else if c == 'f' then some ([0xC], cs)
    else if c == '\r' then some ([], if cs.head? == some '\n' then cs.drop 1 else cs)
    else if isLineEnd c then some ([], cs)
    else if c == 'x' then
      let ds := cs.take 2
      if ds.length == 2 && ds.all isHexDigit then some ([valueIn 16 ds], cs.drop 2) else none
    else if c == 'u' then (readCodePoint cs).map fun p => ([p.1], p.2)
    else if digitValue c < 8 then
      let width := if digitValue c < 4 then 3 else 2
      let ds := ((c :: cs).take width).takeWhile fun d => digitValue d < 8
      some ([valueIn 8 ds], (c :: cs).drop ds.length)
    else some ([c.toNat], cs)

def readString (quote : Char) (fuel : Nat) (points : List Nat) (cs : List Char) :
    Option (List Nat × List Char) :=
  match fuel, cs with
  | 0, _ | _, [] => none
  | fuel + 1, c :: rest =>
    if c == quote then some (joinSurrogates points.reverse, rest)
    else if c == '\\' then
      match readEscape rest with
      | some (ns, rest) => readString quote fuel (ns.reverse ++ points) rest
      | none => none
    else if c == '\n' || c == '\r' then none
    else readString quote fuel (c.toNat :: points) rest

def backquote : Char := Char.ofNat 0x60

def validTemplateEscape : Bool :=
  match cs with
  | c :: rest =>
    if c == '0' then !rest.head?.any Char.isDigit
    else if c.isDigit then false
    else (readEscape cs).isSome
  | [] => false

/-- The rest of a template piece; raw characters are kept in reverse, every line end as a line
feed. The result tells whether the template ends here. -/
def readTemplate (raw : List Char) (valid : Bool) : List Char → Option (Lexeme × List Char)
  | [] => none
  | c :: rest =>
    let text := String.ofList raw.reverse
    if c == backquote then some (.template text true valid, rest)
    else
      match c, rest with
      | '$', '\x7b' :: more => some (.template text false valid, more)
      | '\\', d :: more =>
        let ok := valid && validTemplateEscape (d :: more)
        if d == '\r' then readTemplate ('\\' :: raw) ok (d :: more)
        else readTemplate (d :: '\\' :: raw) ok more
      | '\r', '\n' :: more => readTemplate ('\n' :: raw) valid more
      | '\r', more => readTemplate ('\n' :: raw) valid more
      | c, more => readTemplate (c :: raw) valid more

def readPattern (inClass : Bool) : List Char → Option (List Char × List Char)
  | [] => none
  | c :: rest =>
    if isLineEnd c then none
    else if c == '\\' then
      match rest with
      | d :: more =>
        if isLineEnd d then none
        else (readPattern inClass more).map fun p => (c :: d :: p.1, p.2)
      | [] => none
    else if c == '/' && !inClass then some ([], rest)
    else
      let inClass := if c == '[' then true else if c == ']' then false else inClass
      (readPattern inClass rest).map fun p => (c :: p.1, p.2)

def patternFlags : List Char := "dgimsuvy".toList

def readRegex : Option (Lexeme × List Char) := do
  let (pattern, rest) ← readPattern false cs
  let flags := rest.takeWhile Text.isNameContinue
  if flags.all patternFlags.contains && flags.eraseDups.length == flags.length then
    some (.regex (String.ofList pattern) (String.ofList flags), rest.drop flags.length)
  else none

def marks : List String :=
  [">>>=", "...", "===", "!==", "**=", "<<=", ">>=", ">>>", "&&=", "||=", "??=", "=>", "==", "!=",
    "<=", ">=", "&&", "||", "??", "?.", "++", "--", "+=", "-=", "*=", "/=", "%=", "&=", "|=", "^=",
    "<<", ">>", "**", "\x7b", "\x7d", "(", ")", "[", "]", ";", ",", "<", ">", "+", "-", "*", "/",
    "%", "&", "|", "^", "!", "~", "?", ":", "=", ".", "@"]

def readMark : Option (Lexeme × List Char) :=
  let fits (m : String) : Bool :=
    m.toList.isPrefixOf cs && !(m == "?." && (cs.drop 2).head?.any Char.isDigit)
  (marks.find? fits).map fun m => (.mark m, cs.drop m.length)

def readLexeme : Option (Lexeme × List Char) :=
  match cs with
  | [] => some (.endOfFile, [])
  | c :: rest =>
    if Text.isNameStart c || c == '\\' then
      (readWord (cs.length + 1) [] false cs).map fun p => (.word p.1 p.2.1, p.2.2)
    else if c.isDigit || (c == '.' && rest.head?.any Char.isDigit) then readNumber cs
    else if c == '"' || c == '\x27' then
      (readString c (cs.length + 1) [] rest).map fun p =>
        (.string p.1 (String.ofList (rest.take (rest.length - p.2.length - 1))), p.2)
    else if c == backquote then readTemplate [] true rest
    else if c == '#' then
      (readWord (cs.length + 1) [] false rest).map fun p => (.privateName p.1, p.2.2)
    else readMark cs

def spanBytes (cs rest : List Char) : Nat :=
  Text.byteLength (cs.take (cs.length - rest.length))

/-- The token after blanks and comments, of which `t` has been met. `keep` as for
`Trivia.addLine`. -/
def readToken (keep : Bool) (t : Trivia) (pos : Nat) (cs : List Char) : Option Token := do
  let gap ← skipGap keep .blank t false pos cs
  let (lexeme, rest) ← readLexeme gap.rest
  return {
    lexeme
    start := gap.pos
    stop := gap.pos + spanBytes gap.rest rest
    afterNewline := gap.broken
    comments := gap.trivia.comments.reverse
    rest }

def Token.next (t : Token) : Option Token :=
  readToken (t.isMark "=" || t.isMark "(") {} t.stop t.rest

def Token.asRegex (t : Token) : Option Token := do
  let lead := if t.isMark "/=" then ['='] else []
  let (lexeme, rest) ← readRegex (lead ++ t.rest)
  return { t with lexeme, rest, stop := t.stop + spanBytes t.rest rest }

def Token.asTemplate (t : Token) : Option Token := do
  let (lexeme, rest) ← readTemplate [] true t.rest
  return { t with lexeme, rest, stop := t.stop + spanBytes t.rest rest }

def firstToken (source : String) : Option Token :=
  match source.toList with
  | '#' :: '!' :: rest =>
    let line := rest.takeWhile (!isLineEnd ·)
    readToken false { newline := true } (2 + Text.byteLength line) (rest.drop line.length)
  | cs => readToken false { newline := true } 0 cs

end ReactiveMarkup.Script
