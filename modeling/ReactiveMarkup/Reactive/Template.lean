import ReactiveMarkup.Reactive.Document

/-! # Templates

Fresh fragments of new nodes from the text of their markup. A text is read once and then copied. How
page markup is read is a parameter.
-/

namespace ReactiveMarkup.Reactive

/-- A node of a page, as a reader of page markup finds it. -/
inductive PageNode where
  | text (s : String)
  | comment (s : String)
  | element (name : String) (attributes : List (String × String)) (children : List PageNode)
  | other

/-- The nodes that a text stands for in the body of a page. -/
abbrev PageReader := String → List PageNode

namespace PageNode

def children : PageNode → List PageNode
  | element _ _ cs => cs
  | _ => []

mutual
/-- The tree of a text, a comment or an element; nothing else is taken over. -/
def trees (svg : Bool) : PageNode → List (Rose Content)
  | text s => [.node { kind := .text s } []]
  | comment s => [.node { kind := .comment s } []]
  | element name attributes cs =>
    let attributes := attributes.foldl (fun set a => assign a.1 a.2 set) []
    [.node { kind := .element name svg, attributes } (treesOf svg cs)]
  | other => []

def treesOf (svg : Bool) : List PageNode → List (Rose Content)
  | [] => []
  | n :: rest => n.trees svg ++ treesOf svg rest
end

end PageNode

/-- The trees of a text of markup. What belongs in a drawing is read inside of one. -/
def PageReader.trees (page : PageReader) (html : String) (svg : Bool) : List (Rose Content) :=
  if svg then
    let drawing := (page ("<svg>" ++ html ++ "</svg>")).head?
    PageNode.treesOf svg ((drawing.map PageNode.children).getD [])
  else PageNode.treesOf svg (page html)

namespace Document

variable {ρ : Type}

def isEmptyComment (c : Content) : Bool := c.kind == .comment ""

def fragment (d : Document ρ) (page : PageReader) (html : String) (svg : Bool) :
    NodeId × Document ρ :=
  match d.templates.find? (·.1 == (html, svg)) with
  | some t => d.clone t.2 true
  | none =>
    let (t, d) := plant (.node { kind := .fragment } (page.trees html svg)) d
    let d := { d with templates := d.templates ++ [((html, svg), t)] }
    d.clone t true

mutual
def cleanBelow : Rose NodeId → Document ρ → Document ρ
  | .node p cs, d => cleanAll p cs d

def cleanAll (parent : NodeId) : List (Rose NodeId) → Document ρ → Document ρ
  | [], d => d
  | .node i cs :: rest, d =>
    if isEmptyComment (d.content i) then
      let (t, d) := d.create (.text "")
      cleanAll parent rest (d.replaceChild parent t i)
    else cleanAll parent rest (cleanAll i cs d)
end

def cleanFragment (d : Document ρ) (page : PageReader) (html : String) : NodeId × Document ρ :=
  let (f, d) := d.fragment page html false
  (f, cleanBelow (d.ids f) d)

end Document

end ReactiveMarkup.Reactive
