import ReactiveMarkup.Style.Colour

/-! # Values as tokens

The dense text of a value of which nothing but its tokens is known: white space shrinks to one
space or to nothing beside a delimiter, colours and quantities take their shortest form.
-/

namespace ReactiveMarkup.Style

open Number (Binary)

def lengthUnits : List String :=
  ["px", "in", "cm", "mm", "q", "pt", "pc", "em", "rem", "ex", "rex", "ch", "rch", "cap", "rcap",
    "ic", "ric", "lh", "rlh", "vw", "lvw", "svw", "dvw", "cqw", "vh", "lvh", "svh", "dvh", "cqh",
    "vi", "svi", "lvi", "dvi", "cqi", "vb", "svb", "lvb", "dvb", "cqb", "vmin", "svmin", "lvmin",
    "dvmin", "cqmin", "vmax", "svmax", "lvmax", "dvmax", "cqmax"]

def lengthUnit? (unit : String) : Option String :=
  if lengthUnits.contains (toLower unit) then some (toLower unit) else none

def rescale (b : Binary) (num den : Nat) : Binary :=
  let (n, d) := b.ratio
  Binary.ofRatio Number.single b.isNegative (n * num) (d * den)

def below (b : Binary) (num den : Nat) : Bool := b.lt (Binary.ofRatio Number.single false num den)

def timeText? (b : Binary) (unit : String) : Option String :=
  match toLower unit with
  | "s" =>
    if !b.isZero && !b.isNegative && below b 1 10 then some (numberText (rescale b 1000 1) ++ "ms")
    else some (numberText b ++ "s")
  | "ms" =>
    if b.isZero || !below b 100 1 then some (numberText (rescale b 1 1000) ++ "s")
    else some (numberText b ++ "ms")
  | _ => none

def angleUnits : List String := ["deg", "grad", "rad", "turn"]

def quantityText (n : Numeric) (unit : String) : String :=
  match lengthUnit? unit, timeText? n.value unit with
  | some u, _ => dimensionText n.value u
  | none, some t => t
  | none, none =>
    if angleUnits.contains (toLower unit) then dimensionText n.value (toLower unit)
    else dimensionText n.value unit

inductive Piece where
  | text (s : String)
  | blank
  | delim (c : Char)
  | comma
  deriving DecidableEq, Repr

def Piece.print : Piece → String
  | text s => s
  | blank => " "
  | delim c => if c == '+' || c == '-' then String.ofList [' ', c, ' '] else String.singleton c
  | comma => ","

/-- Pieces in reverse; whether the last one needs no space after it, and whether it is one. -/
structure PieceRow where
  pieces : List Piece := []
  afterDelim : Bool := false
  afterBlank : Bool := false

namespace PieceRow

variable (r : PieceRow)

def add (s : String) (delim : Bool) : PieceRow :=
  { pieces := .text s :: r.pieces, afterDelim := delim, afterBlank := false }

def addBlank : PieceRow :=
  if r.afterDelim then r else { r with pieces := .blank :: r.pieces, afterBlank := true }

def addDelim (p : Piece) : PieceRow :=
  let before := if r.afterBlank then r.pieces.tail else r.pieces
  { pieces := p :: before, afterDelim := true, afterBlank := false }

end PieceRow

def bracketTexts : Bracket → String × String
  | .round => ("(", ")")
  | .square => ("[", "]")
  | .curly => ("\x7b", "\x7d")

def tokenText : Token → String
  | .ident n => identText n
  | .atKeyword n => "@" ++ identText n
  | .hash n isId =>
    match Colour.ofDigits? n with
    | some c => c.text
    | none => "#" ++ (if isId then identText n else nameText n.toList)
  | .string s => stringText s
  | .url s => urlText s
  | .number n => numberText n.value
  | .percentage n => numericText n ++ "%"
  | .dimension n u => quantityText n u
  | .blank s => s
  | .comment s => "/*" ++ s ++ "*/"
  | .colon => ":"
  | .semicolon => ";"
  | .comma => ","
  | .delim c => String.singleton c
  | .matchOp c => String.ofList [c, '=']
  | .cdo => "<!--"
  | .cdc => "-->"
  | .function n => identText n ++ "("
  | .opening b => (bracketTexts b).1
  | .closing b => (bracketTexts b).2
  | .badString | .badUrl => ""

def trimPieces (ps : List Piece) : List Piece :=
  let front := match ps with
    | .blank :: rest => rest
    | ps => ps
  match front.reverse with
  | .blank :: rest => rest.reverse
  | _ => front

def printPieces (ps : List Piece) : String := String.join (ps.map Piece.print)

mutual

def addPart (r : PieceRow) : Part → Except Nat PieceRow
  | .leaf t s =>
    match t with
    | .blank _ | .comment _ => .ok r.addBlank
    | .delim c => .ok (r.addDelim (.delim c))
    | .comma => .ok (r.addDelim .comma)
    | .badString | .badUrl | .closing _ => .error s.start
    | t => .ok (r.add (tokenText t) false)
  | .group (.bracket b) body _ _ =>
    match addParts { pieces := .text (bracketTexts b).1 :: r.pieces } body with
    | .ok inner => .ok (inner.add (bracketTexts b).2 true)
    | .error e => .error e
  | .group (.function name) body _ _ =>
    match Colour.ofFunction? name body, body.filter (fun p => !p.isSkipped) with
    | some c, _ => .ok (r.add c.text false)
    | none, ps =>
      match toLower name, ps with
      | "url", [.leaf (.string s) _] => .ok (r.add (urlText s) false)
      | _, _ =>
        match addParts {} body with
        | .ok inner =>
          .ok (r.add (identText name ++ "(" ++ printPieces (trimPieces inner.pieces.reverse) ++ ")")
            true)
        | .error e => .error e

def addParts (r : PieceRow) : List Part → Except Nat PieceRow
  | [] => .ok r
  | p :: rest =>
    match addPart r p with
    | .ok r => addParts r rest
    | .error e => .error e

end

def denseText (ps : List Part) : Except Nat String :=
  (addParts {} ps).map fun r => printPieces (trimPieces r.pieces.reverse)

mutual

def Part.verbatim : Part → Except Nat String
  | .leaf t s =>
    match t with
    | .badString | .badUrl | .closing _ => .error s.start
    | .number n => .ok (numericText n)
    | .dimension n u => .ok (numericText n ++ unitText u)
    | .hash n isId => .ok ("#" ++ (if isId then identText n else nameText n.toList))
    | t => .ok (tokenText t)
  | .group (.bracket b) body _ _ =>
    match verbatimText body with
    | .ok inner => .ok ((bracketTexts b).1 ++ inner ++ (bracketTexts b).2)
    | .error e => .error e
  | .group (.function name) body _ _ =>
    match verbatimText body with
    | .ok inner => .ok (identText name ++ "(" ++ inner ++ ")")
    | .error e => .error e

def verbatimText : List Part → Except Nat String
  | [] => .ok ""
  | p :: rest =>
    match p.verbatim with
    | .error e => .error e
    | .ok s =>
      match verbatimText rest with
      | .error e => .error e
      | .ok t => .ok (s ++ t)

end

end ReactiveMarkup.Style
