import ReactiveMarkup.Number.Decimal
import ReactiveMarkup.Style.Ident

/-! # Numbers in style text

Numbers are written with at most six significant digits, positionally from `10^-6` up to `10^21`,
and without the zero before the point.
-/

namespace ReactiveMarkup.Style

open Number (Binary Digits)

def precision : Nat := 6

def roundDigits (d : Digits) : Digits :=
  match d.digits[precision]? with
  | none => d
  | some next =>
    let kept := Number.natDigits ((digitsValue (d.digits.take precision)) +
      (if '5' ≤ next then 1 else 0))
    { digits := (kept.reverse.dropWhile (· == '0')).reverse
      point := d.point + (kept.length - precision : Nat) }

def magnitudeText (m : Nat) (e : Int) : List Char :=
  let d := roundDigits (Number.shortest Number.single m e)
  if -6 < d.point && d.point ≤ 21 then d.positional else d.scientific false

def plainNumber : Binary → String
  | .finite s m e => (if s then "-" else "") ++ String.ofList (magnitudeText m e)
  | .infinite s => if s then "-infinity" else "infinity"
  | .nan => "NaN"

def dropLeadingZeros (s : String) : String :=
  match s.toList with
  | '-' :: rest => "-" ++ String.ofList (rest.dropWhile (· == '0'))
  | cs => String.ofList (cs.dropWhile (· == '0'))

def isFraction (b : Binary) : Bool :=
  !b.isZero && b.abs.lt (Binary.ofNat Number.single 1)

def numberText (b : Binary) : String :=
  if isFraction b then dropLeadingZeros (plainNumber b)
  else if b.isZero then "0"
  else plainNumber b

/-- A unit that could be read as an exponent is escaped. -/
def unitText (unit : String) : String :=
  match unit.toList with
  | 'e' :: rest =>
    if rest.isEmpty || rest.head? == some '-' then "\\65 " ++ nameText rest else identText unit
  | _ => identText unit

def dimensionText (b : Binary) (unit : String) : String := numberText b ++ unitText unit

/-- The zero before the point is dropped below one hundredth of the whole. -/
def percentText (b : Binary) : String :=
  if isFraction b then dropLeadingZeros (plainNumber b) ++ "%"
  else numberText b ++ "%"

/-- A number as its token is written: with its sign, and `.0` for a whole value that was written
with a fraction. -/
def numericText (n : Numeric) : String :=
  let text := plainNumber n.value
  let sign := if n.signed && !n.value.isNegative then "+" else ""
  let tail :=
    if n.whole.isNone && n.value.whole?.isSome && !text.toList.contains 'e' then ".0" else ""
  sign ++ text ++ tail

end ReactiveMarkup.Style
