/-! # Binary floating point

Numbers of the form `±m · 2^e` with a bounded mantissa, together with infinities and the value that
is no number. Every operation rounds an exact rational to the nearest such number, a tie to the
even mantissa.
-/

namespace ReactiveMarkup.Number

/-- Mantissas have at most `precision` bits and exponents lie between `minExp` and `maxExp`. -/
structure Format where
  precision : Nat
  minExp : Int
  maxExp : Int
  deriving DecidableEq, Repr

def double : Format := { precision := 53, minExp := -1074, maxExp := 971 }

def single : Format := { precision := 24, minExp := -149, maxExp := 104 }

/-- A finite number is kept with the least exponent that its format allows or with a full
mantissa. -/
inductive Binary where
  | nan
  | infinite (negative : Bool)
  | finite (negative : Bool) (mantissa : Nat) (exponent : Int)
  deriving DecidableEq, Repr

namespace Binary

def zero : Binary := finite false 0 0

def scaled (num den : Nat) (exp : Int) : Nat × Nat :=
  match exp with
  | .ofNat n => (num * Nat.pow 2 n, den)
  | .negSucc n => (num, den * Nat.pow 2 (n + 1))

/-- The greatest `k` with `2^k ≤ num / den`, for positive `num` and `den`. -/
def floorLog2 (num den : Nat) : Int :=
  let guess : Int := (num.log2 : Int) - (den.log2 : Int)
  let (n, d) := scaled num den (-guess)
  if d ≤ n then guess else guess - 1

def divNearest (num den : Nat) : Nat :=
  let q := num / den
  let r := num % den
  if 2 * r < den then q
  else if den < 2 * r then q + 1
  else if q % 2 = 0 then q
  else q + 1

def ofRatio (f : Format) (negative : Bool) (num den : Nat) : Binary :=
  if num = 0 then finite negative 0 f.minExp
  else
    let e := max f.minExp (floorLog2 num den - (f.precision - 1 : Nat))
    let (n, d) := scaled num den (-e)
    let m := divNearest n d
    let (m, e) := if m = Nat.pow 2 f.precision then (m / 2, e + 1) else (m, e)
    if f.maxExp < e then infinite negative else finite negative m e

def ofNat (f : Format) (n : Nat) : Binary := ofRatio f false n 1

def ofDecimal (f : Format) (negative : Bool) (mantissa : Nat) (exp : Int) : Binary :=
  match exp with
  | .ofNat n => ofRatio f negative (mantissa * Nat.pow 10 n) 1
  | .negSucc n => ofRatio f negative mantissa (Nat.pow 10 (n + 1))

def isNegative : Binary → Bool
  | nan => false
  | infinite s => s
  | finite s _ _ => s

def isZero : Binary → Bool
  | finite _ 0 _ => true
  | _ => false

def abs : Binary → Binary
  | nan => nan
  | infinite _ => infinite false
  | finite _ m e => finite false m e

def ratio : Binary → Nat × Nat
  | finite _ m e => scaled m 1 e
  | _ => (0, 1)

def whole? : Binary → Option Int
  | finite s m e =>
    let (n, d) := scaled m 1 e
    if n % d = 0 then some (if s then -(n / d : Nat) else (n / d : Nat)) else none
  | _ => none

def align (m n : Nat) (e k : Int) (s t : Bool) : Int × Int × Int :=
  let low := min e k
  let x : Int := (m * Nat.pow 2 (e - low).toNat : Nat)
  let y : Int := (n * Nat.pow 2 (k - low).toNat : Nat)
  (if s then -x else x, if t then -y else y, low)

def ofScaled (f : Format) (x : Int) (exp : Int) : Binary :=
  let (n, d) := scaled x.natAbs 1 exp
  ofRatio f (x < 0) n d

def add (f : Format) : Binary → Binary → Binary
  | nan, _ | _, nan => nan
  | infinite s, infinite t => if s = t then infinite s else nan
  | infinite s, finite .. | finite .., infinite s => infinite s
  | finite s m e, finite t n k =>
    let (x, y, low) := align m n e k s t
    if x + y = 0 then finite (s && t) 0 f.minExp else ofScaled f (x + y) low

/-- Numeric equality: zeros are equal, and nothing equals the value that is no number. -/
def eq : Binary → Binary → Bool
  | nan, _ | _, nan => false
  | infinite s, infinite t => s == t
  | finite s m e, finite t n k =>
    let (x, y, _) := align m n e k s t
    x == y
  | _, _ => false

def lt : Binary → Binary → Bool
  | nan, _ | _, nan => false
  | infinite s, infinite t => s && !t
  | infinite s, finite .. => s
  | finite .., infinite t => !t
  | finite s m e, finite t n k =>
    let (x, y, _) := align m n e k s t
    x < y

/-- The pattern of bits of a double: sign, eleven bits of exponent, fifty-two of mantissa. -/
def bits : Binary → UInt64
  | nan => 0x7FF8000000000000
  | infinite s => (if s then 0x8000000000000000 else 0) ||| 0x7FF0000000000000
  | finite s m e =>
    let sign : Nat := if s then Nat.pow 2 63 else 0
    if m = 0 then sign.toUInt64
    else if m < Nat.pow 2 52 then (sign + m).toUInt64
    else (sign + (e + 1075).toNat * Nat.pow 2 52 + (m - Nat.pow 2 52)).toUInt64

end Binary

end ReactiveMarkup.Number
