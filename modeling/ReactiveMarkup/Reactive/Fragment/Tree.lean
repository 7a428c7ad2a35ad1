import ReactiveMarkup.Reactive.Fragment.Token

/-! # Trees of page markup

The nodes that markup stands for in the body of a page.
-/

namespace ReactiveMarkup.Reactive.Fragment

def drawingNames : List String :=
  ["altGlyph", "altGlyphDef", "altGlyphItem", "animateColor", "animateMotion", "animateTransform",
    "clipPath", "feBlend", "feColorMatrix", "feComponentTransfer", "feComposite",
    "feConvolveMatrix", "feDiffuseLighting", "feDisplacementMap", "feDistantLight", "feDropShadow",
    "feFlood", "feFuncA", "feFuncB", "feFuncG", "feFuncR", "feGaussianBlur", "feImage", "feMerge",
    "feMergeNode", "feMorphology", "feOffset", "fePointLight", "feSpecularLighting", "feSpotLight",
    "feTile", "feTurbulence", "foreignObject", "glyphRef", "linearGradient", "radialGradient",
    "textPath"]

def drawingAttributes : List String :=
  ["attributeName", "attributeType", "baseFrequency", "baseProfile", "calcMode", "clipPathUnits",
    "diffuseConstant", "edgeMode", "filterUnits", "glyphRef", "gradientTransform", "gradientUnits",
    "kernelMatrix", "kernelUnitLength", "keyPoints", "keySplines", "keyTimes", "lengthAdjust",
    "limitingConeAngle", "markerHeight", "markerUnits", "markerWidth", "maskContentUnits",
    "maskUnits", "numOctaves", "pathLength", "patternContentUnits", "patternTransform",
    "patternUnits", "pointsAtX", "pointsAtY", "pointsAtZ", "preserveAlpha", "preserveAspectRatio",
    "primitiveUnits", "refX", "refY", "repeatCount", "repeatDur", "requiredExtensions",
    "requiredFeatures", "specularConstant", "specularExponent", "spreadMethod", "startOffset",
    "stdDeviation", "stitchTiles", "surfaceScale", "systemLanguage", "tableValues", "targetX",
    "targetY", "textLength", "viewBox", "viewTarget", "xChannelSelector", "yChannelSelector",
    "zoomAndPan"]

def spelling (names : List String) (name : String) : String :=
  (names.find? fun n => lowerAscii n.toList == name).getD name

structure Frame where
  name : String
  attributes : List (String × String) := []
  drawing : Bool := false
  before : List PageNode := []

variable (stack : List Frame)

def strayNames : List String :=
  ["html", "head", "body", "frame", "frameset", "caption", "col", "colgroup", "tbody", "td",
    "tfoot", "th", "thead", "tr"]

def paragraphEnders : List String :=
  ["address", "article", "aside", "blockquote", "center", "details", "dialog", "dir", "div", "dl",
    "fieldset", "figcaption", "figure", "footer", "form", "h1", "h2", "h3", "h4", "h5", "h6",
    "header", "hgroup", "hr", "li", "dd", "dt", "listing", "main", "menu", "nav", "ol", "p", "pre",
    "search", "section", "summary", "table", "ul", "xmp"]

/-- Elements that an open paragraph or list item is not looked for beyond. -/
def enclosures : List String :=
  ["applet", "button", "caption", "html", "table", "td", "th", "marquee", "object", "template",
    "ul", "ol", "dl", "foreignObject", "svg"]

/-- The node of a closed element. Templates keep their content apart. -/
def Frame.node (f : Frame) : PageNode :=
  .element f.name f.attributes
    (if f.name == "template" && !f.drawing then [] else f.before.reverse)

def addNode (n : PageNode) : List Frame → List Frame
  | f :: rest => { f with before := n :: f.before } :: rest
  | [] => []

def closeOne : List Frame → List Frame
  | f :: g :: rest => addNode f.node (g :: rest)
  | stack => stack

def closeCount : Nat → List Frame → List Frame
  | 0, stack => stack
  | n + 1, stack => closeCount n (closeOne stack)

/-- Closes through the innermost element of a name, if it is open and no enclosure is between. -/
def closeWithin (names bounds : List String) (stack : List Frame) : List Frame :=
  let outside := stack.dropLast
  let reach := outside.takeWhile fun f => !names.contains f.name && !bounds.contains f.name
  match outside.drop reach.length with
  | f :: _ => if names.contains f.name then closeCount (reach.length + 1) stack else stack
  | [] => stack

def addText (s : List Char) : List Frame → List Frame
  | f :: rest =>
    match f.before with
    | .text t :: more => { f with before := .text (t ++ String.ofList s) :: more } :: rest
    | _ => addNode (.text (String.ofList s)) (f :: rest)
  | [] => []

def openNames : List String := stack.dropLast.map (·.name)

def innermost : String := (openNames stack).headD ""

def isWithinTable : Bool := (openNames stack).contains "table"

/-- The elements that a table adds around a row or a cell that stands directly in it. -/
def impliedRows (name : String) (stack : List Frame) : List Frame :=
  let sections := ["tbody", "thead", "tfoot"]
  let isCell := name == "td" || name == "th"
  let stack := if (name == "tr" || isCell) && innermost stack == "table"
    then { name := "tbody" } :: stack else stack
  if isCell && sections.contains (innermost stack) then { name := "tr" } :: stack else stack

def closeImplied (name : String) (stack : List Frame) : List Frame :=
  let stack := if paragraphEnders.contains name then closeWithin ["p"] enclosures stack
    else stack
  if name == "li" then closeWithin ["li"] enclosures stack
  else if name == "dd" || name == "dt" then closeWithin ["dd", "dt"] enclosures stack
  else if name == "option" && innermost stack == "option" then closeOne stack
  else if name == "td" || name == "th" then closeWithin ["td", "th"] ["tr", "table"] stack
  else if name == "tr" then closeWithin ["tr"] ["tbody", "thead", "tfoot", "table"] stack
  else if ["tbody", "thead", "tfoot"].contains name then
    closeWithin ["tbody", "thead", "tfoot"] ["table"] stack
  else stack

def openElement (name : String) (attributes : List (String × String)) (closed : Bool)
    (stack : List Frame) : List Frame :=
  let drawing := name == "svg" || (stack.head?.any fun f => f.drawing && f.name != "foreignObject")
  if drawing then
    let frame : Frame :=
      { name := spelling drawingNames name, drawing
        attributes := attributes.map fun a => (spelling drawingAttributes a.1, a.2) }
    if closed then addNode frame.node stack else frame :: stack
  else if strayNames.contains name && !isWithinTable stack then stack
  else
    let stack := impliedRows name (closeImplied name stack)
    let frame : Frame := { name := if name == "image" then "img" else name, attributes }
    if voidElements.contains frame.name then addNode frame.node stack else frame :: stack

def closeElement (name : String) (stack : List Frame) : List Frame :=
  let isOpen := (openNames stack).any fun n => lowerAscii n.toList == name
  if isOpen then closeWithin [name, spelling drawingNames name] [] stack
  else if name == "p" then addNode (Frame.node { name }) stack
  else if name == "br" then addNode (Frame.node { name }) stack
  else stack

def readToken : Token → List Frame
  | .text s => if s.isEmpty then stack else addText s stack
  | .comment s => addNode (.comment (String.ofList s)) stack
  | .start name attributes closed => openElement name attributes closed stack
  | .stop name => closeElement name stack

def read : PageReader := fun html =>
  let stack := (tokensOf html).foldl readToken [{ name := "" }]
  match closeCount stack.length stack with
  | f :: _ => f.before.reverse
  | [] => []

end ReactiveMarkup.Reactive.Fragment
