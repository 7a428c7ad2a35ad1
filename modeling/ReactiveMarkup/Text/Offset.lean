/-! # Byte offsets

Positions in a source are counted in bytes of its UTF-8 form. A cut inside a character has no
result.
-/

namespace ReactiveMarkup.Text

structure Span where
  start : Nat
  stop : Nat
  deriving DecidableEq, Repr

def byteLength : List Char → Nat
  | [] => 0
  | c :: cs => c.utf8Size + byteLength cs

@[simp] theorem byteLength_nil : byteLength [] = 0 := rfl

@[simp] theorem byteLength_cons : byteLength (c :: cs) = c.utf8Size + byteLength cs := rfl

@[simp] theorem byteLength_append : byteLength (xs ++ ys) = byteLength xs + byteLength ys := by
  induction xs with
  | nil => simp
  | cons c cs ih => simp [ih, Nat.add_assoc]

/-- The first `n` bytes and the rest, when `n` is a character boundary of the text. -/
def splitAt? : List Char → Nat → Option (List Char × List Char)
  | cs, 0 => some ([], cs)
  | [], _ + 1 => none
  | c :: cs, n + 1 =>
    if c.utf8Size ≤ n + 1 then
      (splitAt? cs (n + 1 - c.utf8Size)).map fun p => (c :: p.1, p.2)
    else none

def slice? (cs : List Char) (start stop : Nat) : Option (List Char) := do
  let (front, _) ← splitAt? cs stop
  let (_, middle) ← splitAt? front start
  return middle

/-- The longest whole characters within the first `n` bytes. -/
def takeBytes : List Char → Nat → List Char
  | [], _ => []
  | c :: cs, n => if c.utf8Size ≤ n then c :: takeBytes cs (n - c.utf8Size) else []

def floorBoundary (cs : List Char) (n : Nat) : Nat := byteLength (takeBytes cs n)

def findOffset (needle : List Char) : List Char → Option Nat
  | [] => if needle.isEmpty then some 0 else none
  | c :: cs =>
    if needle.isPrefixOf (c :: cs) then some 0
    else (findOffset needle cs).map (· + c.utf8Size)

def contains (text needle : String) : Bool := (findOffset needle.toList text.toList).isSome

def replaceFirstChars (needle replacement : List Char) : List Char → List Char
  | [] => if needle.isEmpty then replacement else []
  | c :: cs =>
    if needle.isPrefixOf (c :: cs) then replacement ++ (c :: cs).drop needle.length
    else c :: replaceFirstChars needle replacement cs

def replaceFirst (text needle replacement : String) : String :=
  String.ofList (replaceFirstChars needle.toList replacement.toList text.toList)

end ReactiveMarkup.Text
