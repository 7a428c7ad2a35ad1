import ReactiveMarkup.Number.Binary

/-! # Reading numbers -/

namespace ReactiveMarkup.Number

def digitsValue (cs : List Char) : Nat :=
  cs.foldl (fun n c => 10 * n + (c.toNat - '0'.toNat)) 0

def splitSign : List Char → Bool × List Char
  | '-' :: rest => (true, rest)
  | '+' :: rest => (false, rest)
  | cs => (false, cs)

/-- `±mantissa · 10^exp` in double precision. Beyond the range of the format no power is
computed. -/
def ofBoundedDecimal (negative : Bool) (mantissa : Nat) (exp : Int) : Binary :=
  if mantissa = 0 then .finite negative 0 double.minExp
  else
    let size : Int := (Nat.toDigits 10 mantissa).length + exp
    if 400 < size then .infinite negative
    else if size < -400 then .finite negative 0 double.minExp
    else .ofDecimal double negative mantissa exp

def readExponent? : List Char → Option Int
  | [] => some 0
  | c :: rest =>
    if c == 'e' || c == 'E' then
      let (negative, digits) := splitSign rest
      if digits.isEmpty || !digits.all Char.isDigit then none
      else some (if negative then -(digitsValue digits : Int) else digitsValue digits)
    else none

def readDecimal? (negative : Bool) (cs : List Char) : Option Binary := do
  let whole := cs.takeWhile Char.isDigit
  let rest := cs.dropWhile Char.isDigit
  let (fraction, rest) := match rest with
    | '.' :: tail => (tail.takeWhile Char.isDigit, tail.dropWhile Char.isDigit)
    | other => ([], other)
  if whole.isEmpty && fraction.isEmpty then none
  let exp ← readExponent? rest
  return ofBoundedDecimal negative (digitsValue (whole ++ fraction)) (exp - fraction.length)

/-- Reads a whole text as a number. The words for infinity and for the value that is no number
are read in either case. -/
def readNumber? (s : String) : Option Binary :=
  let (negative, cs) := splitSign s.toList
  let word := String.ofList (cs.map Char.toLower)
  if word == "inf" || word == "infinity" then some (.infinite negative)
  else if word == "nan" then some .nan
  else readDecimal? negative cs

def readIndex? (s : String) : Option Nat :=
  let digits := match s.toList with
    | '+' :: rest => rest
    | cs => cs
  if digits.isEmpty || !digits.all Char.isDigit then none
  else
    let n := digitsValue digits
    if n < Nat.pow 2 64 then some n else none

end ReactiveMarkup.Number
