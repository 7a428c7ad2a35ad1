import ReactiveMarkup.Number.Decimal
import ReactiveMarkup.Number.Numeral
import ReactiveMarkup.Text.Blank

/-! # Observed values

The values that watchers compare. Arrays, objects and promises have an identity of their own beside
their contents.
-/

namespace ReactiveMarkup.Reactive

open Number (Binary)

/-- Fields of an object are kept in the order of their names. -/
inductive Value where
  | undefined
  | null
  | bool (b : Bool)
  | number (n : Binary)
  | string (s : String)
  | array (id : Nat) (items : List Value)
  | object (id : Nat) (fields : List (String × Value))
  | promise (id : Nat)
  deriving Inhabited

/-- What is left of a value when only its identity counts. -/
inductive Key where
  | undefined
  | null
  | bool (b : Bool)
  | number (bits : UInt64)
  | string (s : String)
  | array (id : Nat)
  | object (id : Nat)
  | promise (id : Nat)
  deriving DecidableEq, Repr

namespace Value

/-- Identity. The value that is no number is identical to itself, and so are the two zeros. -/
def same : Value → Value → Bool
  | undefined, undefined => true
  | null, null => true
  | bool a, bool b => a == b
  | number a, number b => a.eq b || (a == .nan && b == .nan)
  | string a, string b => a == b
  | array i _, array j _ => i == j
  | object i _, object j _ => i == j
  | promise i, promise j => i == j
  | _, _ => false

def key : Value → Key
  | undefined => .undefined
  | null => .null
  | bool b => .bool b
  | number n => .number (if n.isZero then 0 else n.bits)
  | string s => .string s
  | array i _ => .array i
  | object i _ => .object i
  | promise i => .promise i

def isTruthy : Value → Bool
  | undefined | null => false
  | bool b => b
  | number n => !n.isZero && n != .nan
  | string s => s != ""
  | array .. | object .. | promise _ => true

def isNullish : Value → Bool
  | undefined | null => true
  | _ => false

def items? : Value → Option (List Value)
  | array _ xs => some xs
  | _ => none

def fields? : Value → Option (List (String × Value))
  | object _ fs => some fs
  | _ => none

def number? : Value → Option Binary
  | number n => some n
  | string s => Number.readNumber? (Text.trim s)
  | bool b => some (if b then .ofNat Number.double 1 else .zero)
  | _ => none

def ofNat (n : Nat) : Value := number (.ofNat Number.double n)

def get (v : Value) (name : String) : Value :=
  match v with
  | object _ fields => (fields.lookup name).getD undefined
  | array _ items =>
    if name == "length" then ofNat items.length
    else ((Number.readIndex? name).bind (items[·]?)).getD undefined
  | string s => if name == "length" then ofNat s.length else undefined
  | _ => undefined

end Value

def signed (negative : Bool) (digits : List Char) : String :=
  String.ofList (if negative then '-' :: digits else digits)

def leastWord : Int := -9223372036854775808

def greatestWord : Int := 9223372036854775807

/-- Whole numbers below `10^21` are written as the nearest word of sixty-four bits, all others in
positional form with the fewest digits. -/
def numberText : Binary → String
  | .nan => "NaN"
  | .infinite s => signed s "Infinity".toList
  | .finite s m e =>
    match Binary.whole? (.finite s m e) with
    | some i =>
      if i.natAbs < Nat.pow 10 21 then
        let word := max leastWord (min i greatestWord)
        signed (word < 0) (Number.natDigits word.natAbs)
      else signed s (Number.shortest Number.double m e).positional
    | none => signed s (Number.shortest Number.double m e).positional

mutual
def Value.text : Value → String
  | .undefined => "undefined"
  | .null => "null"
  | .bool b => if b then "true" else "false"
  | .number n => numberText n
  | .string s => s
  | .array _ items => ",".intercalate (itemTexts items)
  | .object .. => "[object Object]"
  | .promise _ => "[object Promise]"

def itemTexts : List Value → List String
  | [] => []
  | v :: rest => (if v.isNullish then "" else v.text) :: itemTexts rest
end

inductive Settled where
  | fulfilled (v : Value)
  | rejected (v : Value)
  deriving Inhabited

end ReactiveMarkup.Reactive
