import ReactiveMarkup.Interpolation
import ReactiveMarkup.Script.Component
import ReactiveMarkup.Style.Scope
import ReactiveMarkup.Template.Address
import ReactiveMarkup.Template.Fault
import ReactiveMarkup.Template.Static

/-! # Generating code

The code of a template is generated with fresh names at hand. Warnings are kept even when the
generation fails. Within a block, statements are collected and the nodes they refer to are named.
-/

namespace ReactiveMarkup.Template

open Markup (Node)

structure Setting where
  options : Compile.Options
  script : Script.Component
  scope : Option Style.Scope
  kindOf : String → Option Expression.Kind := Expression.kind?

/-- `binds` and `addresses` belong to the block in hand. -/
structure Work where
  names : Names := {}
  warnings : List String := []
  usesResolver : Bool := false
  binds : List String := []
  addresses : Address := .empty

abbrev Gen := ReaderT Setting (ExceptT Diagnostic (StateM Work))

def fail {α : Type} (f : Fault) : Gen α := throw f.diagnose

def require (condition : Bool) (f : Fault) : Gen Unit := if condition then pure () else fail f

def fresh (stem : String) : Gen String := do
  let w ← get
  let (n, names) := w.names.fresh stem
  set { w with names }
  return n

def warn (text : String) : Gen Unit :=
  modify fun w => { w with warnings := w.warnings ++ [text] }

def checkName (path : String) : Gen Unit := do
  match ((← read).script.checkRootName path).2 with
  | some text => warn text
  | none => pure ()

def kindOf (code : String) : Gen (Option Expression.Kind) := do return (← read).kindOf code

def requireName (code : String) (f : Fault) : Gen Unit := do
  require ((← kindOf code) = some .identifier) f

def emit (code : String) : Gen Unit := modify fun w => { w with binds := w.binds ++ [code] }

def nameAt (path : List Nat) : Gen String := do
  let w ← get
  let (n, addresses, names) := w.addresses.claim "el" w.names path
  set { w with addresses, names }
  return n

def escape : Gen Interpolation.Escape := do
  return if (← read).options.inlineTemplate then .inline else .template

def quoted (s : String) : Gen String := do return (← escape).apply s

def interpolate (s : String) : Gen String := do
  match Interpolation.parse s (← escape) with
  | .ok i => return i.result
  | .error d => throw d

def unwrap (s : String) : Gen String :=
  match Expression.unwrap s with
  | .ok e => return e
  | .error f => throw f.diagnose

def labelText (text : String) : Gen String := do
  return if (← read).options.hideLabel then "<!---->" else "<!-- " ++ text ++ " -->"

def explain {α : Type} (excerpt : String) (act : Gen α) : Gen α :=
  tryCatch act fun d => throw (d.orDetails excerpt)

def backquoted (s : String) : String :=
  String.singleton Interpolation.backquote ++ s ++ String.singleton Interpolation.backquote

def after? (lead text : String) : Option String :=
  if lead.toList.isPrefixOf text.toList then some (String.ofList (text.toList.drop lead.length))
  else none

def startsWith (lead text : String) : Bool := (after? lead text).isSome

def hasBrace (s : String) : Bool := s.toList.contains '\x7b'

def splitChars (p : Char → Bool) (s : String) : List String :=
  let step (c : Char) (acc : List (List Char)) : List (List Char) :=
    if p c then [] :: acc
    else
      match acc with
      | piece :: pieces => (c :: piece) :: pieces
      | [] => [[c]]
  (s.toList.foldr step [[]]).map String.ofList

def directiveParts (s : String) : List String := splitChars (fun c => c == '|' || c == ':') s

def commaItems (s : String) : List String :=
  let pieces := (splitChars (· == ',') s).map String.toList
  let trimmed (first last : Bool) (cs : List Char) : List Char :=
    let cs := if first then cs else Text.trimStart cs
    if last then cs else Text.trimEnd cs
  (pieces.zipIdx.map fun (cs, i) => trimmed (i == 0) (i + 1 == pieces.length) cs).map String.ofList

def lines (xs : List String) : String := "\n".intercalate xs

end ReactiveMarkup.Template
