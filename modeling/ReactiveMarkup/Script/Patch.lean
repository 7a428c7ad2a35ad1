import ReactiveMarkup.Text.Offset

/-! # Patches

Changes to a source, each at a byte offset. Rendering a span applies the patches inside it from
left to right.
-/

namespace ReactiveMarkup.Script

open Text (Span)

inductive Change where
  | opening (text : String)
  | closing (text : String)
  /-- The source up to `stop` is left out. -/
  | cut (stop : Nat)
  deriving DecidableEq, Repr

/-- A change at byte `pos`; `seq` counts changes in the order of their making. -/
structure Patch where
  pos : Nat
  seq : Nat
  change : Change
  deriving DecidableEq, Repr

namespace Patch

/-- At one offset closings come first, the latest made before earlier ones; then openings and then
cuts, in the order of their making. -/
def rank (p : Patch) : Int × Int :=
  match p.change with
  | .closing _ => (0, -p.seq)
  | .opening _ => (1, p.seq)
  | .cut _ => (2, p.seq)

def le (a b : Patch) : Bool :=
  let (i, m) := a.rank
  let (j, n) := b.rank
  a.pos < b.pos || (a.pos == b.pos && (i < j || (i == j && m ≤ n)))

end Patch

def sliceText (source : List Char) (start stop : Nat) : List Char :=
  (Text.slice? source start stop).getD []

/-- The source from `cursor` to `stop` with ordered patches applied. A patch inside a part that was
cut is dropped. -/
def applyPatches (source : List Char) (stop cursor : Nat) : List Patch → List Char
  | [] => sliceText source cursor stop
  | p :: rest =>
    if p.pos < cursor then applyPatches source stop cursor rest
    else
      let before := sliceText source cursor p.pos
      match p.change with
      | .opening t | .closing t =>
        before ++ t.toList ++ applyPatches source stop p.pos rest
      | .cut e => before ++ applyPatches source stop (min e stop) rest

def renderSpan (source : List Char) (patches : List Patch) (span : Span) : String :=
  let inside := patches.filter fun p => span.start ≤ p.pos && p.pos ≤ span.stop
  String.ofList (applyPatches source span.stop span.start (inside.mergeSort Patch.le))

end ReactiveMarkup.Script
