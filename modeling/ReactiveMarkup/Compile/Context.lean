import ReactiveMarkup.Script.Component
import ReactiveMarkup.Style.Scope

/-! # A compilation in progress -/

namespace ReactiveMarkup.Compile

open Markup (Node RawBlock Root)

/-- The generated parts of the component function: one is put in front of it, one at its end. -/
structure Parts where
  header : String := ""
  body : String := ""
  deriving DecidableEq, Repr

structure Context where
  source : String
  options : Options
  root : Root := { body := [], span := ⟨0, 0⟩ }
  scripts : List RawBlock := []
  styles : List RawBlock := []
  script : Option Script.Component := none
  scope : Option Style.Scope := none
  parts : Parts := {}
  result : Option String := none

/-- What an observer is told about a compilation at a phase; sizes are in bytes. -/
structure Snapshot where
  phase : String
  source : Nat
  nodes : Nat
  scripts : Nat
  styles : Nat
  script : Bool
  scope : Bool
  header : Nat
  body : Nat
  code : Nat
  result : Bool
  deriving DecidableEq, Repr

def Context.snapshot (c : Context) (phase : String) : Snapshot where
  phase := phase
  source := c.source.utf8ByteSize
  nodes := c.root.body.length
  scripts := c.scripts.length
  styles := c.styles.length
  script := c.script.isSome
  scope := c.scope.isSome
  header := c.parts.header.utf8ByteSize
  body := c.parts.body.utf8ByteSize
  code := (c.script.map (·.code.utf8ByteSize)).getD 0
  result := c.result.isSome

def isRaw (k : Markup.RawKind) : Node → Option RawBlock
  | .raw b => if b.kind = k then some b else none
  | _ => none

def Context.splitSections (c : Context) : Context :=
  let isSection (n : Node) : Bool := (isRaw .script n).isSome || (isRaw .style n).isSome
  { c with
    scripts := c.scripts ++ c.root.body.filterMap (isRaw .script)
    styles := c.styles ++ c.root.body.filterMap (isRaw .style)
    root := { c.root with body := c.root.body.filter fun n => !isSection n } }

end ReactiveMarkup.Compile
