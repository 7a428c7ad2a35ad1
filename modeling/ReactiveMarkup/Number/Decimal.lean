import ReactiveMarkup.Number.Binary

/-! # Decimal forms of numbers

The fewest decimal digits that round back to a number, and the layouts in which they are written.
-/

namespace ReactiveMarkup.Number

/-- Digits `d₁d₂…dₖ` without trailing zeros that stand for `0.d₁d₂…dₖ · 10^point`. -/
structure Digits where
  digits : List Char
  point : Int
  deriving DecidableEq, Repr

def floorLog10 (num den : Nat) : Int :=
  let guess : Int := (Binary.floorLog2 num den) * 30103 / 100000 - 1
  let reaches (k : Int) : Bool :=
    match k with
    | .ofNat n => Nat.pow 10 n * den ≤ num
    | .negSucc n => den ≤ num * Nat.pow 10 (n + 1)
  if reaches (guess + 3) then guess + 3
  else if reaches (guess + 2) then guess + 2
  else if reaches (guess + 1) then guess + 1
  else guess

def scaled10 (num den : Nat) (exp : Int) : Nat × Nat :=
  match exp with
  | .ofNat n => (num * Nat.pow 10 n, den)
  | .negSucc n => (num, den * Nat.pow 10 (n + 1))

def natDigits (n : Nat) : List Char := Nat.toDigits 10 n

def Digits.ofNat (c : Nat) (exp : Int) : Digits :=
  let ds := natDigits c
  { digits := (ds.reverse.dropWhile (· == '0')).reverse, point := ds.length + exp }

/-- Ends of the interval of reals that round to `m · 2^e`, over the denominator `4 · 2^-e`:
four times the mantissa, less and plus the distance to the neighbours' midpoints. -/
def neighbourhood (f : Format) (m : Nat) (e : Int) : Nat × Nat :=
  let below := if m = Nat.pow 2 (f.precision - 1) ∧ f.minExp < e then 1 else 2
  (4 * m - below, 4 * m + 2)

/-- A candidate of `n` digits for `m · 2^e` whose first digit is at `10^top`; none when no decimal
with that many digits rounds back. -/
def candidate? (f : Format) (m : Nat) (e top : Int) (n : Nat) : Option Digits :=
  let (lo, hi) := neighbourhood f m e
  let exp := top - (n - 1 : Nat)
  let (vn, vd) := Binary.scaled m 1 e
  let (gn, gd) := scaled10 vn vd (-exp)
  let down := gn / gd
  let inside (c : Nat) : Bool :=
    let (cn, cd) := scaled10 c 1 exp
    let (sn, sd) := Binary.scaled (cn * 4) cd (-e)
    if m % 2 = 0 then lo * sd ≤ sn && sn ≤ hi * sd else lo * sd < sn && sn < hi * sd
  let r := gn % gd
  let low := inside down
  let high := inside (down + 1)
  if low && high then
    if 2 * r < gd || (2 * r == gd && down % 2 == 0) then some (Digits.ofNat down exp)
    else some (Digits.ofNat (down + 1) exp)
  else if low then some (Digits.ofNat down exp)
  else if high then some (Digits.ofNat (down + 1) exp)
  else none

/-- The fewest digits that round back to `m · 2^e`, and of those the nearest. -/
def shortest (f : Format) (m : Nat) (e : Int) : Digits :=
  if m = 0 then { digits := ['0'], point := 1 }
  else
    let (n, d) := Binary.scaled m 1 e
    let top := floorLog10 n d
    ((List.range 17).findSome? fun k => candidate? f m e top (k + 1)).getD
      (Digits.ofNat m e)

def zeros (n : Nat) : List Char := List.replicate n '0'

def Digits.positional (d : Digits) : List Char :=
  let k := d.digits.length
  if (k : Int) ≤ d.point then d.digits ++ zeros (d.point.toNat - k)
  else if 0 < d.point then
    d.digits.take d.point.toNat ++ '.' :: d.digits.drop d.point.toNat
  else '0' :: '.' :: zeros (-d.point).toNat ++ d.digits

def Digits.scientific (d : Digits) (plus : Bool) : List Char :=
  let mantissa :=
    match d.digits with
    | c :: c' :: rest => c :: '.' :: c' :: rest
    | ds => ds
  let e := d.point - 1
  let sign := if e < 0 then ['-'] else if plus then ['+'] else []
  mantissa ++ 'e' :: sign ++ natDigits e.natAbs

end ReactiveMarkup.Number
