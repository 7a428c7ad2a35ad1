import ReactiveMarkup.Reactive.World
import ReactiveMarkup.Text.Quoted

/-! # Snapshots

Values as they are at one moment, and their written form.
-/

namespace ReactiveMarkup.Reactive

open Number (Binary)

inductive Shown where
  | undefined
  | null
  | bool (b : Bool)
  | number (n : Binary)
  | string (s : String)
  | array (items : List Shown)
  | object (fields : List (String × Shown))
  | pending
  | fulfilled (v : Shown)
  | rejected (v : Shown)
  deriving Inhabited

namespace Shown

def nat (n : Nat) : Shown := number (.ofNat Number.double n)

def ofOption {α : Type} (f : α → Shown) : Option α → Shown
  | some a => f a
  | none => null

def strings (ss : List String) : Shown := array (ss.map string)

end Shown

mutual
def snapshotTo (settled : PromiseId → Option Settled) (n : Nat) (v : Value) : Shown :=
  match v with
  | .undefined => .undefined
  | .null => .null
  | .bool b => .bool b
  | .number x => .number x
  | .string s => .string s
  | .array _ items => .array (snapshotItems settled n items)
  | .object _ fields => .object (snapshotFields settled n fields)
  | .promise i =>
    match n with
    | 0 => .pending
    | n + 1 =>
      match settled i with
      | none => .pending
      | some (.fulfilled v) => .fulfilled (snapshotTo settled n v)
      | some (.rejected v) => .rejected (snapshotTo settled n v)
termination_by (n, sizeOf v)

def snapshotItems (settled : PromiseId → Option Settled) (n : Nat) (vs : List Value) :
    List Shown :=
  match vs with
  | [] => []
  | v :: rest => snapshotTo settled n v :: snapshotItems settled n rest
termination_by (n, sizeOf vs)

def snapshotFields (settled : PromiseId → Option Settled) (n : Nat)
    (fs : List (String × Value)) : List (String × Shown) :=
  match fs with
  | [] => []
  | (name, v) :: rest => (name, snapshotTo settled n v) :: snapshotFields settled n rest
termination_by (n, sizeOf fs)
end

variable {κ υ : Type}

/-- A value as it is now. No chain of settled promises is longer than there are promises. -/
def snapshot (v : Value) : Act κ υ Shown := do
  let promises := (← get).promises
  return snapshotTo (fun i => (promises[i]?).bind (·.settled)) (promises.size + 1) v

mutual
def Shown.describe : Shown → String
  | .undefined => "undefined"
  | .null => "null"
  | .bool b => if b then "true" else "false"
  | .number n => numberText n
  | .string s => Text.quoted s
  | .array items => "[" ++ ", ".intercalate (describeItems items) ++ "]"
  | .object fields => "\x7b" ++ ", ".intercalate (describeFields fields) ++ "\x7d"
  | .pending => "Promise \x7b settled: None \x7d"
  | .fulfilled v => "Promise \x7b settled: Some(Ok(" ++ v.describe ++ ")) \x7d"
  | .rejected v => "Promise \x7b settled: Some(Err(" ++ v.describe ++ ")) \x7d"

def describeItems : List Shown → List String
  | [] => []
  | v :: rest => v.describe :: describeItems rest

def describeFields : List (String × Shown) → List String
  | [] => []
  | (name, v) :: rest => (Text.quoted name ++ ": " ++ v.describe) :: describeFields rest
end

end ReactiveMarkup.Reactive
