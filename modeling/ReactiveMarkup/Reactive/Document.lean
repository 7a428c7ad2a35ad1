import ReactiveMarkup.Reactive.Rose
import ReactiveMarkup.Reactive.Value

/-! # Documents

Nodes are addressed by number and never freed; a node that has been taken out has no parent. What
listeners do is a parameter.
-/

namespace ReactiveMarkup.Reactive

abbrev NodeId := Nat

abbrev ListenerId := Nat

inductive NodeKind where
  | element (name : String) (svg : Bool)
  | text (s : String)
  | comment (s : String)
  | fragment
  deriving DecidableEq, Repr

structure Content where
  kind : NodeKind
  attributes : List (String × String) := []
  styles : List (String × String) := []
  properties : List (String × Value) := []

structure Listener (ρ : Type) where
  event : String
  id : ListenerId
  reaction : ρ

structure Node (ρ : Type) where
  content : Content
  parent : Option NodeId := none
  children : List NodeId := []
  listeners : List (Listener ρ) := []

/-- Templates are fragments kept under their markup and whether it belongs in a drawing. -/
structure Document (ρ : Type) where
  nodes : Array (Node ρ) := #[]
  lastListener : ListenerId := 0
  templates : List ((String × Bool) × NodeId) := []

def assign {α : Type} (name : String) (value : α) : List (String × α) → List (String × α)
  | [] => [(name, value)]
  | e :: rest => if e.1 == name then (name, value) :: rest else e :: assign name value rest

def putBefore (n r : NodeId) : List NodeId → List NodeId
  | [] => [n]
  | c :: rest => if c = r then n :: c :: rest else c :: putBefore n r rest

def through (last : NodeId) : List NodeId → List NodeId
  | [] => []
  | c :: rest => if c = last then [c] else c :: through last rest

namespace Document

variable {ρ : Type} (d : Document ρ) (i : NodeId)

def update (f : Node ρ → Node ρ) : Document ρ :=
  { d with nodes := d.nodes.modify i f }

def updateContent (f : Content → Content) : Document ρ :=
  d.update i fun n => { n with content := f n.content }

def add (c : Content) : NodeId × Document ρ :=
  (d.nodes.size, { d with nodes := d.nodes.push { content := c } })

def create (k : NodeKind) : NodeId × Document ρ := d.add { kind := k }

def content : Content :=
  ((d.nodes[i]?).map (·.content)).getD { kind := .fragment }

def kind : NodeKind := (d.content i).kind

def tagName? : Option String :=
  match d.kind i with
  | .element name _ => some name
  | _ => none

/-! ## Places -/

def parent? : Option NodeId := (d.nodes[i]?).bind (·.parent)

def children : List NodeId := ((d.nodes[i]?).map (·.children)).getD []

def firstChild? : Option NodeId := (d.children i).head?

def lastChild? : Option NodeId := (d.children i).getLast?

def extent? : Option (NodeId × NodeId) := do
  return (← d.firstChild? i, ← d.lastChild? i)

def place? : Option (NodeId × Nat) := do
  let p ← d.parent? i
  return (p, ← (d.children p).idxOf? i)

def nextSibling? : Option NodeId := do
  let (p, k) ← d.place? i
  (d.children p)[k + 1]?

def previousSibling? : Option NodeId := do
  let (p, k) ← d.place? i
  if k = 0 then none else (d.children p)[k - 1]?

/-- The siblings from `first` through `last`; all that follow `first` when `last` is not among
them. -/
def range (first last : NodeId) : List NodeId :=
  match d.parent? first with
  | none => [first]
  | some p => through last ((d.children p).dropWhile (· != first))

/-! ## Changes of place -/

def detach : Document ρ :=
  let d := match d.parent? i with
    | some p => d.update p fun n => { n with children := n.children.erase i }
    | none => d
  d.update i fun n => { n with parent := none }

def place (parent node : NodeId) (reference : Option NodeId) : Document ρ :=
  if reference = some node then d
  else
    let d := d.detach node
    let siblings := d.children parent
    let siblings := match reference with
      | some r => if d.parent? r = some parent then putBefore node r siblings else siblings ++ [node]
      | none => siblings ++ [node]
    let d := d.update parent fun n => { n with children := siblings }
    d.update node fun n => { n with parent := some parent }

/-- Inserts a node. A fragment gives its children, one after the other, and stays empty. -/
def insertBefore (parent node : NodeId) (reference : Option NodeId) : Document ρ :=
  if reference = some node then d
  else if d.kind node = .fragment then
    let moved := d.children node
    let d := d.update node fun n => { n with children := [] }
    moved.foldl (fun d c =>
      (d.update c fun n => { n with parent := none }).place parent c reference) d
  else d.place parent node reference

def appendChild (parent node : NodeId) : Document ρ :=
  d.insertBefore parent node none

def replaceChild (parent node old : NodeId) : Document ρ :=
  if node = old then d else (d.insertBefore parent node (some old)).detach old

def removeRange (first last : NodeId) : Document ρ :=
  (d.range first last).foldl detach d

/-! ## Subtrees -/

def idsTo (d : Document ρ) : Nat → NodeId → Rose NodeId
  | 0, i => .node i []
  | n + 1, i => .node i ((d.children i).map (d.idsTo n))

/-- The tree below a node. No tree is higher than the document has nodes. -/
def ids : Rose NodeId := d.idsTo d.nodes.size i

def contents : Rose Content := (d.ids i).map d.content

def link (parent node : NodeId) : Document ρ :=
  (d.update node fun n => { n with parent := some parent }).update parent fun n =>
    { n with children := n.children ++ [node] }

mutual
def plant : Rose Content → Document ρ → NodeId × Document ρ
  | .node c cs, d =>
    let (i, d) := d.add c
    (i, plantAll i cs d)

def plantAll (parent : NodeId) : List (Rose Content) → Document ρ → Document ρ
  | [], d => d
  | t :: rest, d =>
    let (i, d) := plant t d
    plantAll parent rest (d.link parent i)
end

/-- A new node like another one, with all below it when `deep`. Listeners are not copied. -/
def clone (deep : Bool) : NodeId × Document ρ :=
  if deep then plant (d.contents i) d else d.add (d.content i)

def elementsByTag (name : String) : List NodeId :=
  ((d.ids i).preorder.drop 1).filter fun j => d.tagName? j == some name

/-! ## Contents -/

def value? : Option String :=
  match d.kind i with
  | .text s | .comment s => some s
  | _ => none

def textPart (c : Content) (below : String) : String :=
  match c.kind with
  | .text s => s
  | .comment _ => ""
  | _ => below

def text : String := (d.contents i).foldText textPart

def setText (s : String) : Document ρ :=
  match d.kind i with
  | .text _ => d.updateContent i fun c => { c with kind := .text s }
  | .comment _ => d.updateContent i fun c => { c with kind := .comment s }
  | _ =>
    let d := (d.children i).foldl detach d
    let (t, d) := d.create (.text s)
    d.appendChild i t

def attribute? (name : String) : Option String :=
  (d.content i).attributes.lookup name

def setAttribute (name value : String) : Document ρ :=
  d.updateContent i fun c => { c with attributes := assign name value c.attributes }

def removeAttribute (name : String) : Document ρ :=
  d.updateContent i fun c => { c with attributes := c.attributes.filter (·.1 != name) }

def classes : List String :=
  ((d.attribute? i "class").map Text.words).getD []

def toggleClass (name : String) (on : Bool) : Document ρ :=
  let list := d.classes i
  if list.contains name == on then d
  else
    let list := if on then list ++ [name] else list.filter (· != name)
    d.setAttribute i "class" (" ".intercalate list)

def style? (property : String) : Option String :=
  (d.content i).styles.lookup property

def setStyle (property : String) (value : Option String) : Document ρ :=
  d.updateContent i fun c =>
    { c with styles := c.styles.filter (·.1 != property) ++ value.toList.map (property, ·) }

def property (name : String) : Value :=
  ((d.content i).properties.lookup name).getD .undefined

def setProperty (name : String) (value : Value) : Document ρ :=
  d.updateContent i fun c => { c with properties := assign name value c.properties }

/-! ## Listeners -/

def addListener (event : String) (reaction : ρ) : ListenerId × Document ρ :=
  let id := d.lastListener + 1
  let l : Listener ρ := { event, id, reaction }
  let d := { d with lastListener := id }
  (id, d.update i fun n => { n with listeners := n.listeners ++ [l] })

def removeListener (id : ListenerId) : Document ρ :=
  d.update i fun n => { n with listeners := n.listeners.filter (·.id != id) }

def listenersFor (event : String) : List ρ :=
  ((((d.nodes[i]?).map (·.listeners)).getD []).filter (·.event == event)).map (·.reaction)

end Document

/-! ## Printing -/

def voidElements : List String :=
  ["area", "base", "br", "col", "embed", "hr", "img", "input", "link", "meta", "param", "source",
    "track", "wbr"]

def escapeText (s : String) : String :=
  String.join (s.toList.map fun c =>
    if c == '&' then "&amp;" else if c == '<' then "&lt;" else if c == '>' then "&gt;"
    else c.toString)

def escapeAttribute (s : String) : String :=
  String.join (s.toList.map fun c => if c == '"' then "&quot;" else c.toString)

/-- Styles are shown as an attribute unless the element has one of that name. -/
def Content.shownAttributes (c : Content) : List (String × String) :=
  let styles := "; ".intercalate (c.styles.map fun s => s.1 ++ ": " ++ s.2)
  c.attributes.map (fun a => (a.1, escapeAttribute a.2)) ++
    if c.styles.isEmpty || (c.attributes.lookup "style").isSome then [] else [("style", styles)]

def Content.html (c : Content) (below : String) : String :=
  match c.kind with
  | .text s => escapeText s
  | .comment s => "<!--" ++ s ++ "-->"
  | .fragment => below
  | .element name _ =>
    let attributes := String.join (c.shownAttributes.map fun a =>
      " " ++ a.1 ++ "=\"" ++ a.2 ++ "\"")
    "<" ++ name ++ attributes ++ ">" ++
      if voidElements.contains name then "" else below ++ "</" ++ name ++ ">"

namespace Document

variable {ρ : Type} (d : Document ρ) (i : NodeId)

def html : String := (d.contents i).foldText Content.html

def innerHtml : String := Rose.foldTextAll Content.html (d.contents i).children

end Document

end ReactiveMarkup.Reactive
