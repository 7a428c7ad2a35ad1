import ReactiveMarkup.Text.Blank
import ReactiveMarkup.Text.Offset

/-! # Markup trees

One constructor per markup construct. Positions are byte offsets into the component source.
-/

namespace ReactiveMarkup.Markup

open Text (Span)

/-- `content` is the attribute as written, such as `value={name}`. -/
structure Attribute where
  name : String
  value : Option String
  content : String
  deriving DecidableEq, Repr

def Attribute.plain (name : String) (value : Option String) : Attribute where
  name := name
  value := value
  content :=
    match value with
    | some v => name ++ "=\"" ++ v ++ "\""
    | none => name

/-- An element without its children. `arg` is written after the name, as in `<slot:title>`;
`classes` holds scope tokens, without repetition and in order of arrival. -/
structure Element where
  id : Nat
  name : String
  arg : Option String
  attributes : List Attribute
  openTag : String
  closed : Bool
  void : Bool
  classes : List String := []
  deriving DecidableEq, Repr

namespace Element

def isComponent (e : Element) : Bool :=
  e.name == "component" || e.name.toList.head?.any Char.isUpper

def attribute? (e : Element) (name : String) : Option Attribute :=
  e.attributes.find? (·.name == name)

def addClass (e : Element) (name : String) : Element :=
  if name ∈ e.classes then e else { e with classes := e.classes ++ [name] }

end Element

inductive RawKind where
  | script
  | style
  | template
  deriving DecidableEq, Repr

def RawKind.name : RawKind → String
  | .script => "script"
  | .style => "style"
  | .template => "template"

structure RawBlock where
  kind : RawKind
  attributes : List Attribute
  openTag : String
  content : String
  span : Span
  deriving DecidableEq, Repr

namespace RawBlock

def name (b : RawBlock) : String := b.kind.name

def hasAttribute (b : RawBlock) (name : String) : Bool := b.attributes.any (·.name == name)

end RawBlock

/-- A markup node. The `header` of a block is the text between its opening braces. An absent
`else`, `then` or `catch` section has no body. -/
inductive Node where
  | element (head : Element) (body : List Node) (span : Span)
  | text (value : String) (span : Span)
  | comment (content : String) (span : Span)
  | raw (block : RawBlock)
  | each (header : String) (body : List Node) (span : Span)
  | cond (header : String) (body : List Node) (hasElse : Bool) (alt : List Node) (span : Span)
  | await (header : String) (main : List Node) (thenHeader : Option String) (thenBody : List Node)
      (catchHeader : Option String) (catchBody : List Node) (span : Span)
  | slot (header : String) (body : List Node) (span : Span)
  | fragment (header : String) (body : List Node) (span : Span)
  | sysTag (header : String) (span : Span)

namespace Node

def span : Node → Span
  | element _ _ s | text _ s | comment _ s | each _ _ s | cond _ _ _ _ s | await _ _ _ _ _ _ s
  | slot _ _ s | fragment _ _ s | sysTag _ s => s
  | raw b => b.span

def excerpt : Node → String
  | text v _ => Text.trim v
  | element e _ _ => Text.trim e.openTag
  | comment c _ => c
  | raw b => b.openTag
  | each h _ _ | cond h _ _ _ _ | await h _ _ _ _ _ _ | slot h _ _ | fragment h _ _
  | sysTag h _ => Text.trim h

def elementName? : Node → Option String
  | element e _ _ => some e.name
  | _ => none

def isText : Node → Bool
  | text _ _ => true
  | _ => false

def isBlankText : Node → Bool
  | text v _ => Text.allBlank v
  | _ => false

end Node

structure Root where
  body : List Node
  span : Span

def Node.style? : Node → Option RawBlock
  | .raw b => if b.kind = .style then some b else none
  | _ => none

def Root.styleBlocks (root : Root) : List RawBlock := root.body.filterMap Node.style?

end ReactiveMarkup.Markup
