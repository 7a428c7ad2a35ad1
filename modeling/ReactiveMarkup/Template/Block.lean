import ReactiveMarkup.Template.Generator

/-! # Blocks

A block is a body of markup that is shown as a whole: its static template, and a function that
finds the dynamic nodes in a copy of the template and binds them.
-/

namespace ReactiveMarkup.Template

open Markup (Node)

/-- Where a node stands in its block, and whether it is all that its element holds. -/
structure Place where
  path : List Nat
  onlyChild : Bool

/-- A node with the action that generates its code and returns what it leaves in the template,
and with the parts of its bodies. -/
inductive Part where
  | mk (node : Node) (act : Place → Gen (List Static)) (bodies : List (List Part))

variable (path : List Nat) (parts : List Part)

namespace Part

def node : Part → Node
  | mk n _ _ => n

def generate : Part → Place → Gen (List Static)
  | mk _ act _ => act

def body : Part → List Part
  | mk _ _ bodies => bodies.headD []

def isBlankText (p : Part) : Bool := p.node.isBlankText

end Part

mutual

def plan (act : Node → List (List Part) → Place → Gen (List Static)) : Node → Part
  | .element e body s => prepare (.element e body s) [planAll act body]
  | .each h body s => prepare (.each h body s) [planAll act body]
  | .slot h body s => prepare (.slot h body s) [planAll act body]
  | .fragment h body s => prepare (.fragment h body s) [planAll act body]
  | .cond h body hasElse alt s =>
    prepare (.cond h body hasElse alt s) [planAll act body, planAll act alt]
  | .await h main th tb ch cb s =>
    prepare (.await h main th tb ch cb s) [planAll act main, planAll act tb, planAll act cb]
  | .text v s => prepare (.text v s) []
  | .comment c s => prepare (.comment c s) []
  | .raw b => prepare (.raw b) []
  | .sysTag h s => prepare (.sysTag h s) []
where
  prepare (n : Node) (bodies : List (List Part)) : Part := .mk n (act n bodies) bodies

def planAll (act : Node → List (List Part) → Place → Gen (List Static)) : List Node → List Part
  | [] => []
  | n :: rest => plan act n :: planAll act rest

end

/-- `binder` names the function that binds the block, which does nothing when nothing is bound. -/
structure Block where
  binder : String
  template : List Static
  source : String
  svg : Bool

def Block.text (b : Block) : String := printStatic b.template

inductive Holder where
  | element
  | other
  deriving DecidableEq, Repr

structure BlockOptions where
  guarded : Bool := false
  parameters : List String := []

def svgNames : List String :=
  ["animate", "animateMotion", "animateTransform", "circle", "clipPath", "color-profile", "defs",
    "desc", "discard", "ellipse", "feBlend", "feColorMatrix", "feComponentTransfer", "feComposite",
    "feConvolveMatrix", "feDiffuseLighting", "feDisplacementMap", "feDistantLight", "feDropShadow",
    "feFlood", "feFuncA", "feFuncB", "feFuncG", "feFuncR", "feGaussianBlur", "feImage", "feMerge",
    "feMergeNode", "feMorphology", "feOffset", "fePointLight", "feSpecularLighting", "feSpotLight",
    "feTile", "feTurbulence", "filter", "g", "hatch", "hatchpath", "image", "line",
    "linearGradient", "marker", "mask", "mesh", "meshgradient", "meshpatch", "meshrow", "metadata",
    "mpath", "path", "pattern", "polygon", "polyline", "radialGradient", "rect", "set",
    "solidcolor", "stop", "switch", "symbol", "text", "textPath", "tspan", "unknown", "use", "view"]

/-- What is left of a body: texts joined, and nodes that stand for themselves. -/
inductive Item where
  | text (value : String)
  | part (p : Part)

def Item.elementName? : Item → Option String
  | text _ => none
  | part p => p.node.elementName?

def isHidden (preserveComments : Bool) : Node → Bool
  | .raw b => b.kind != .template
  | .slot .. | .fragment .. => true
  | .comment .. => !preserveComments
  | _ => false

def isFragment : Node → Bool
  | .fragment .. => true
  | _ => false

def addItem (p : Part) (items : List Item) : List Item :=
  match p.node, items with
  | .text v _, .text w :: rest => .text (v ++ w) :: rest
  | .text v _, items => .text v :: items
  | _, items => .part p :: items

def itemsOf : List Item := parts.foldr addItem []

/-- Whether the last node is a label once an item has been added. Comments and raw templates do not
count, nor does a loop that fills its element alone. -/
def labelAfter (onlyChild last : Bool) : Item → Bool
  | .text _ => false
  | .part p =>
    match p.node with
    | .raw _ | .comment .. => last
    | .element e _ _ => e.isComponent || e.name == "slot" || e.name == "fragment"
    | .each .. => if onlyChild then last else true
    | _ => true

/-- Whether the last node is a label, which later nodes may be inserted after. -/
def endsInLabel (onlyChild : Bool) (items : List Item) : Bool :=
  items.foldl (labelAfter onlyChild) false

def textCode (el exp : String) : String := s!"$runtime.bindText($cd, {el}, () => {exp});"

def bindText (value : String) : Gen (List Static) := do
  if hasBrace value then
    let exp ← interpolate value
    let el ← nameAt path
    emit (textCode el exp)
    return [.hole]
  else return [.text value]

def generateItems (path : List Nat) (onlyChild : Bool) (index : Nat) :
    List Item → Gen (List Static)
  | [] => return []
  | item :: rest => do
    let here ← match item with
      | .text value => explain (Text.trim value) (bindText (path ++ [index]) value)
      | .part p => explain p.node.excerpt (p.generate { path := path ++ [index], onlyChild })
    return here ++ (← generateItems path onlyChild (index + 1) rest)

def defineFragments : Gen Unit :=
  (parts.filter fun p => isFragment p.node).forM fun p => do
    let _ ← explain p.node.excerpt (p.generate { path := [], onlyChild := false })

def openBody : Gen (List Item) := do
  defineFragments parts
  let o := (← read).options
  return itemsOf (parts.filter fun p => !isHidden o.preserveComments p.node)

def generateBody : Gen (List Static) := do
  let items ← openBody parts
  generateItems path (parts.length == 1) 0 items

def isSvg (items : List Item) : Bool :=
  let names := items.filterMap Item.elementName?
  !names.isEmpty && names.all svgNames.contains

def binderSource (name : String) (parameters : List String) (lookups : List Lookup)
    (binds : List String) : String :=
  "function " ++ name ++ "(" ++ ", ".intercalate ("$cd" :: "$parentElement" :: parameters) ++
    ") \x7b\n" ++ String.join (lookups.map Lookup.print) ++ lines binds ++ "\x7d;"

def buildBlock (holder : Holder) (o : BlockOptions) : Gen Block := do
  let outer ← get
  set { outer with binds := [], addresses := .empty }
  let items ← openBody parts
  let onlyChild := holder = .element && parts.length == 1
  let body ← generateItems [] onlyChild 0 items
  let template := if endsInLabel onlyChild items && o.guarded then body ++ [.guard] else body
  let inner ← get
  let restore (w : Work) : Work := { w with binds := outer.binds, addresses := outer.addresses }
  if inner.binds.isEmpty then
    set (restore inner)
    return { binder := "$runtime.noop", template, source := "", svg := isSvg items }
  else
    let (name, names) := inner.names.fresh "$$build"
    let (lookups, names) := inner.addresses.lookups "el" "$parentElement" [] names
    set (restore { inner with names })
    return {
      binder := name, template, svg := isSvg items
      source := binderSource name o.parameters lookups inner.binds }

def fragmentOf (b : Block) : Gen String := do
  let convert := if b.svg then "$runtime.svgToFragment" else "$$htmlToFragment"
  return convert ++ "(" ++ backquoted (← quoted b.text) ++ ")"

end ReactiveMarkup.Template
