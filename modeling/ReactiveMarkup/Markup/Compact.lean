import ReactiveMarkup.Markup.Node

/-! # Blank removal

Neighbouring texts are joined, blanks at the ends of a text become one space, and a blank text is
dropped where layout cannot show it. The content of `pre` and `textarea` is kept.
-/

namespace ReactiveMarkup.Markup

inductive Owner where
  | root
  | element (name : String)
  | each
  | block
  deriving DecidableEq, Repr

def tidyText (value : String) : String :=
  let cs := value.toList
  if cs.isEmpty then ""
  else
    let core := Text.trimChars cs
    if core.isEmpty then " "
    else
      let front := if cs.head?.any Text.isBlank then [' '] else []
      let back := if cs.getLast?.any Text.isBlank then [' '] else []
      String.ofList (front ++ core ++ back)

def joinTexts : List Node → List Node
  | [] => []
  | .text v s :: rest =>
    match joinTexts rest with
    | .text w t :: more => .text (v ++ w) ⟨s.start, t.stop⟩ :: more
    | more => .text v s :: more
  | n :: rest => n :: joinTexts rest

def Node.tidy : Node → Node
  | .text v s => .text (tidyText v) s
  | n => n

def Node.isEach : Node → Bool
  | .each .. => true
  | _ => false

def packedNames : List String := ["td", "tr", "li", "div"]

def removable (owner : Owner) (prev next : Option Node) : Bool :=
  let p := prev.bind Node.elementName?
  let n := next.bind Node.elementName?
  match prev, next with
  | some _, some _ => p == n && p.any packedNames.contains
  | _, _ =>
    let touches (name : String) : Bool := p == some name || n == some name
    match owner with
    | .root | .block => false
    | .each => touches "td"
    | .element name =>
      (name == "tr" && touches "td") || (name == "table" && touches "tbody") ||
        (name == "ul" && touches "li") || name == "div" ||
        prev.any Node.isEach || next.any Node.isEach

/-- Drops removable blanks from left to right; `prev` is the sibling kept last. -/
def dropBlanks (owner : Owner) (prev : Option Node) : List Node → List Node
  | [] => []
  | n :: rest =>
    if n.isBlankText && removable owner prev rest.head? then dropBlanks owner prev rest
    else n :: dropBlanks owner (some n) rest

def compactSiblings (owner : Owner) (nodes : List Node) : List Node :=
  dropBlanks owner none ((joinTexts nodes).map Node.tidy)

def keepsBlanks (name : String) : Bool := name == "pre" || name == "textarea"

mutual

def Node.compact : Node → Node
  | .element e body s =>
    if keepsBlanks e.name then .element e body s
    else .element e (compactSiblings (.element e.name) (compactAll body)) s
  | .each h body s => .each h (compactSiblings .each (compactAll body)) s
  | .slot h body s => .slot h (compactSiblings .block (compactAll body)) s
  | .fragment h body s => .fragment h (compactSiblings .block (compactAll body)) s
  | .cond h body hasElse alt s =>
    .cond h (compactSiblings .block (compactAll body)) hasElse
      (compactSiblings .block (compactAll alt)) s
  | .await h main thenHeader thenBody catchHeader catchBody s =>
    .await h (compactSiblings .block (compactAll main)) thenHeader
      (compactSiblings .block (compactAll thenBody)) catchHeader
      (compactSiblings .block (compactAll catchBody)) s
  | n => n

def compactAll : List Node → List Node
  | [] => []
  | n :: rest => n.compact :: compactAll rest

end

def compactBody (nodes : List Node) : List Node := compactSiblings .root (compactAll nodes)

def Root.compact (root : Root) : Root := { root with body := compactBody root.body }

end ReactiveMarkup.Markup
