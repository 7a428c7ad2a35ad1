import ReactiveMarkup.Number.Decimal

/-! # Written literals -/

namespace ReactiveMarkup.Script

open Number

def plainNumber (f : Format) (m : Nat) (e : Int) : List Char :=
  let d := shortest f m e
  if -6 < d.point ∧ d.point ≤ 21 then d.positional else d.scientific true

def isSmallWhole (m : Nat) (e : Int) : Bool :=
  match (Binary.finite false m e).whole? with
  | some n => n < 1000
  | none => false

def shorter (best trial : List Char) : List Char :=
  if trial.length < best.length then trial else best

def fractionTrial (best : List Char) : List Char :=
  match best with
  | '.' :: '0' :: rest =>
    let digits := rest.dropWhile (· == '0')
    if digits.isEmpty then best
    else shorter best (digits ++ 'e' :: '-' :: natDigits (best.length - 1))
  | _ => best

def zerosTrial (best : List Char) : List Char :=
  let zeroCount := (best.reverse.takeWhile (· == '0')).length
  if zeroCount = 0 then best
  else shorter best (best.take (best.length - zeroCount) ++ 'e' :: natDigits zeroCount)

def pointTrial (best : List Char) : List Char :=
  let whole := best.takeWhile (· != '.')
  match best.drop whole.length with
  | '.' :: after =>
    let fraction := after.takeWhile (· != 'e')
    match after.drop fraction.length with
    | 'e' :: exponent =>
      let (sign, ds) : Int × List Char :=
        match exponent with
        | '-' :: ds => (-1, ds)
        | ds => (1, ds)
      let e := sign * (ds.foldl (fun n d => n * 10 + (d.toNat - '0'.toNat)) 0 : Nat) - fraction.length
      let written := if e < 0 then '-' :: natDigits e.natAbs else natDigits e.natAbs
      shorter best (whole ++ fraction ++ 'e' :: written)
    | _ => best
  | _ => best

def shortNumber (m : Nat) (e : Int) : List Char :=
  let plain := (plainNumber double m e).filter (· != '+')
  if isSmallWhole m e then plain
  else
    let best :=
      match plain with
      | '0' :: '.' :: rest => '.' :: rest
      | cs => cs
    match (Binary.finite false m e).whole? with
    | some n =>
      let hex := '0' :: 'x' :: Nat.toDigits 16 (min n.toNat (Nat.pow 2 128 - 1))
      if hex.length < best.length then hex else pointTrial (zerosTrial best)
    | none => pointTrial (zerosTrial (fractionTrial best))

/-- Text that does not close a script section of a page: the slash of its close tag is escaped. -/
def protectClose : List Char → List Char
  | [] => []
  | c :: rest =>
    let isClose := c == '<' && (rest.take 7).map Char.toLower == "/script".toList
    if isClose then c :: '\\' :: protectClose rest else c :: protectClose rest

def stringPoint (n : Nat) (next : Option Nat) : List Char :=
  if n == 0 then
    if next.any fun d => 0x30 ≤ d && d ≤ 0x39 then "\\x00".toList else "\\0".toList
  else if n == 0x7 then "\\x07".toList
  else if n == 0x8 then "\\b".toList
  else if n == 0xB then "\\v".toList
  else if n == 0xC then "\\f".toList
  else if n == 0xA then "\\n".toList
  else if n == 0xD then "\\r".toList
  else if n == 0x1B then "\\x1B".toList
  else if n == 0x5C then "\\\\".toList
  else if n == 0x22 then "\\\"".toList
  else if n == 0x2028 then "\\u2028".toList
  else if n == 0x2029 then "\\u2029".toList
  else if n == 0xA0 then "\\xA0".toList
  else if 0xD800 ≤ n ∧ n ≤ 0xDFFF then '\\' :: 'u' :: Nat.toDigits 16 n
  else [Char.ofNat n]

def stringChars : List Nat → List Char
  | [] => []
  | n :: rest => stringPoint n rest.head? ++ stringChars rest

def quotedString (points : List Nat) : List Char :=
  '"' :: protectClose (stringChars points) ++ ['"']

end ReactiveMarkup.Script
