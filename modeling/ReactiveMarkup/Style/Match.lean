import ReactiveMarkup.Markup.Node
import ReactiveMarkup.Style.Selector
import ReactiveMarkup.Text.Case

/-! # Static matching

Which elements of a component a selector can ever match. The bodies of loops, conditions, awaits,
slots and fragments count as part of the element around them. A match reports the element and the
elements that the earlier compounds of the selector matched.
-/

namespace ReactiveMarkup.Style

open Markup (Node Element Root)

/-- An element as selectors see it. Other elements are named by their position in the outline;
ancestors and earlier siblings are listed nearest first. -/
structure StaticElement where
  source : Nat
  name : String
  id : Option String
  classes : List String
  attributes : List (String × Option String)
  ancestors : List Nat
  earlier : List Nat
  deriving DecidableEq, Repr

variable (e : StaticElement)

def StaticElement.parent : Option Nat := e.ancestors.head?

/-- `below` lists the children of each element. -/
structure Outline where
  elements : List StaticElement := []
  roots : List Nat := []
  below : List (List Nat) := []
  deriving DecidableEq, Repr

variable (o : Outline)

namespace Outline

def children : Option Nat → List Nat
  | none => o.roots
  | some p => o.below[p]?.getD []

def push : Outline :=
  let k := o.elements.length
  let elements := o.elements ++ [e]
  match e.parent with
  | none => { elements, roots := o.roots ++ [k], below := o.below ++ [[]] }
  | some p => { elements, roots := o.roots, below := o.below.modify p (· ++ [k]) ++ [[]] }

def after? (lead name : String) : Option String :=
  let l := lead.toList
  if l.isPrefixOf name.toList then some (String.ofList (name.toList.drop l.length)) else none

def addAttribute (a : Markup.Attribute) : StaticElement :=
  if a.name == "class" then
    { e with classes := e.classes ++ (a.value.map Text.words).getD [] }
  else if a.name == "id" then { e with id := a.value }
  else
    match after? "class:" a.name with
    | some name => { e with classes := e.classes ++ [name] }
    | none => { e with attributes := e.attributes ++ [(a.name, a.value)] }

def describe (ancestors earlier : List Nat) (e : Element) : StaticElement :=
  e.attributes.foldl addAttribute
    { source := e.id, name := e.name, id := none, classes := [], attributes := [], ancestors, earlier }

mutual

def plant (ancestors : List Nat) (o : Outline) : Node → Outline
  | .element e body _ =>
    let earlier := (o.children ancestors.head?).reverse
    plantAll (o.elements.length :: ancestors) (o.push (describe ancestors earlier e)) body
  | .each _ body _ | .slot _ body _ | .fragment _ body _ => plantAll ancestors o body
  | .cond _ body _ alt _ => plantAll ancestors (plantAll ancestors o body) alt
  | .await _ main _ thenBody _ catchBody _ =>
    plantAll ancestors (plantAll ancestors (plantAll ancestors o main) thenBody) catchBody
  | .text .. | .comment .. | .raw _ | .sysTag .. => o

def plantAll (ancestors : List Nat) (o : Outline) : List Node → Outline
  | [] => o
  | n :: rest => plantAll ancestors (plant ancestors o n) rest

end

def ofRoot (root : Root) : Outline := plantAll [] {} root.body

end Outline

/-! ## Compounds -/

inductive Relation where
  | descendant
  | child
  | adjacent
  | sibling
  deriving DecidableEq, Repr

structure Compound where
  relation : Relation := .descendant
  tag : Option String := none
  id : Option String := none
  classes : List String := []
  attributes : List AttributeTest := []
  deriving DecidableEq, Repr

def StaticElement.value? (name : String) : Option String :=
  if name == "class" then
    if e.classes.isEmpty then none else some (" ".intercalate e.classes)
  else if name == "id" then e.id
  else (e.attributes.find? (·.1 == name)).map fun a => a.2.getD ""

def occursIn (part : List Char) (whole : List Char) : Bool :=
  (Text.findOffset part whole).isSome

def Operator.holds (op : Operator) (actual expected : String) : Bool :=
  let a := actual.toList
  let e := expected.toList
  match op with
  | equals => actual == expected
  | word => (Text.words actual).contains expected
  | dash => actual == expected || (e ++ ['-']).isPrefixOf a
  | start => !e.isEmpty && e.isPrefixOf a
  | stop => !e.isEmpty && e.isSuffixOf a
  | part => !e.isEmpty && occursIn e a

def AttributeTest.holds (t : AttributeTest) (e : StaticElement) : Bool :=
  match e.value? t.name with
  | none => false
  | some actual =>
    match t.comparison with
    | none => true
    | some (op, expected) =>
      if t.caseRule = some .insensitive then op.holds (Text.lower actual) (Text.lower expected)
      else op.holds actual expected

def Compound.holds (c : Compound) (e : StaticElement) : Bool :=
  (c.tag.all fun t => t == "*" || toLower t == toLower e.name) &&
    (c.id.all fun i => e.id == some i) &&
    c.classes.all e.classes.contains &&
    c.attributes.all (·.holds e)

def relationOf : ItemKind → Option Relation
  | .space => some .descendant
  | .combinator .child => some .child
  | .combinator .adjacent => some .adjacent
  | .combinator .sibling => some .sibling
  | _ => none

def Compound.add (c : Compound) : ItemKind → Option Compound
  | .type name => if name == "&" then none else some { c with tag := some name }
  | .id name => some { c with id := some name }
  | .«class» name => some { c with classes := c.classes ++ [name] }
  | .«attribute» t => some { c with attributes := c.attributes ++ [t] }
  | _ => none

/-- Compounds of a selector, the last one first. `isOpen` says that `current` has tests. -/
def compoundsFrom (done : List Compound) (current : Compound) (isOpen : Bool) :
    Selector → Option (List Compound)
  | [] => some (if isOpen then current :: done else done)
  | i :: rest =>
    match relationOf i.kind with
    | some relation =>
      if isOpen then compoundsFrom (current :: done) { relation } false rest
      else compoundsFrom done { current with relation } false rest
    | none =>
      match current.add i.kind with
      | some c => compoundsFrom done c true rest
      | none => none

def compounds (s : Selector) : Except Fault (List Compound) :=
  match compoundsFrom [] {} false s with
  | some (c :: cs) => .ok (c :: cs)
  | _ => .error (.unsupported s.print)

/-! ## Matching -/

/-- An element and the elements that the compounds before the last matched, outermost first. -/
structure Match where
  node : Nat
  path : List Nat
  deriving DecidableEq, Repr

namespace Outline

def candidates : Relation → List Nat
  | .descendant => e.ancestors
  | .child => e.parent.toList
  | .adjacent => e.earlier.head?.toList
  | .sibling => e.earlier

/-- Matches a row of compounds, the last one first, ending at position `at_`. -/
def matchAt (o : Outline) : List Compound → Nat → Option (List Nat)
  | [], _ => none
  | c :: before, at_ =>
    match o.elements[at_]? with
    | none => none
    | some e =>
      if c.holds e then
        if before.isEmpty then some []
        else (candidates e c.relation).findSome? fun k => (o.matchAt before k).map (· ++ [k])
      else none

def sourceAt (at_ : Nat) : Nat := (o.elements[at_]?.map (·.source)).getD 0

def select (s : Selector) : Except Fault (List Match) := do
  let chain ← compounds s
  return (List.range o.elements.length).filterMap fun k =>
    (o.matchAt chain k).map fun path => { node := o.sourceAt k, path := path.map o.sourceAt }

end Outline

end ReactiveMarkup.Style
