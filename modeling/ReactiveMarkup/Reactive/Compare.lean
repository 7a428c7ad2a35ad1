import ReactiveMarkup.Reactive.Value

/-! # Comparators -/

namespace ReactiveMarkup.Reactive

namespace Value

def differsAsArray (a b : Value) : Bool :=
  match a, b with
  | array _ xs, array _ ys =>
    xs.length != ys.length || (xs.zip ys).any fun p => !p.1.same p.2
  | array .., _ => true
  | _, array .. => true
  | _, _ => !a.same b

/-- Different within a number of levels. No value differs within none. -/
def differsWithin : Nat → Value → Value → Bool
  | 0, _, _ => false
  | n + 1, array _ xs, array _ ys =>
    xs.length != ys.length || (xs.zip ys).any fun p => differsWithin n p.1 p.2
  | n + 1, object _ fs, object _ gs =>
    (fs.any fun f =>
      match gs.lookup f.1 with
      | some y => differsWithin n f.2 y
      | none => true) || gs.any fun g => !fs.any (·.1 == g.1)
  | _ + 1, array .., object .. => true
  | _ + 1, object .., array .. => true
  | _ + 1, a, b => !a.same b

def differsDeeply (a b : Value) (depth : Int) : Bool := differsWithin (depth + 1).toNat a b

end Value

inductive Comparator where
  | identity
  | shallow
  | deep (depth : Int)
  deriving DecidableEq, Repr

def usualDepth : Int := 10

/-- A value that is identical to the one before is no change under any comparator. -/
def Comparator.changed (c : Comparator) (before after : Value) : Bool :=
  !before.same after &&
    match c with
    | .identity => true
    | .shallow => before.differsAsArray after
    | .deep d => before.differsDeeply after d

end ReactiveMarkup.Reactive
