import ReactiveMarkup.Digest.Sha256

/-! # Tokens

Short names derived from a text and a number.
-/

namespace ReactiveMarkup.Digest

def numberBytes (n : UInt32) : List UInt8 :=
  [n.toUInt8, (n >>> 8).toUInt8, (n >>> 16).toUInt8, (n >>> 24).toUInt8]

def littleEndian : List UInt8 → Nat
  | [] => 0
  | b :: rest => b.toNat + 256 * littleEndian rest

def base36Digit (d : Nat) : Char :=
  if d < 10 then Char.ofNat ('0'.toNat + d) else Char.ofNat ('a'.toNat + (d - 10))

def base36 : Nat → Nat → List Char
  | 0, _ => []
  | n + 1, value => base36 n (value / 36) ++ [base36Digit (value % 36)]

def tokenDigits : Nat := 6

def token (seed : String) (n : UInt32) : String :=
  let digest := sha256 (seed.toUTF8.toList ++ numberBytes n)
  "m" ++ String.ofList (base36 tokenDigits (littleEndian (digest.take 8)))

theorem length_base36 : (base36 n value).length = n := by
  induction n generalizing value with
  | zero => rfl
  | succ n ih => simp [base36, ih]

end ReactiveMarkup.Digest
