import ReactiveMarkup.Template.Control
import ReactiveMarkup.Template.Directive
import ReactiveMarkup.Template.Invocation

/-! # Templates of markup

Main entry: `generate` turns a body into a block.
-/

namespace ReactiveMarkup.Template

open Markup (Element Node)

variable (path : List Nat) (e : Element)

def hasSpread : Bool := e.attributes.any fun a => startsWith "\x7b..." a.name

/-- The style scope that a spread knows; its class is kept on the element. -/
def spreadScope (scope : Option Style.Scope) (w : ElementWork) : ElementWork × String :=
  match scope with
  | some s => (w.addClass s.id, s!"'{s.id}'")
  | none => (w, "null")

def spreadObjectCode (spread el scope : String) : String :=
  s!"let {spread} = $runtime.$$makeSpreadObject($cd, {el}, {scope});"

def openSpread (w : ElementWork) : Gen ElementWork := do
  if hasSpread e then
    let spread ← fresh "spread"
    let (w, scope) := spreadScope (← read).scope w
    let el ← nameAt path
    emit (spreadObjectCode spread el scope)
    return { w with spread := some spread }
  else return w

def generateAttributes (path : List Nat) (e : Element) :
    List Markup.Attribute → ElementWork → Gen (List String × ElementWork)
  | [], w => return ([], w)
  | a :: rest, w => do
    let (bound, w) ← attributeCode (nameAt path) e w a
    bound.code.forM emit
    let (more, w) ← generateAttributes path e rest w
    return (bound.tag.toList ++ more, w)

def tagText (attributes : List String) (w : ElementWork) : String :=
  let classes := if w.classes.isEmpty then []
    else ["class=\"" ++ " ".intercalate w.classes ++ "\""]
  " ".intercalate (("<" ++ e.name) :: attributes ++ classes)

def generateElement (body : List Part) : Gen Static := do
  let w ← openSpread path e { classes := e.classes }
  let (attributes, w) ← generateAttributes path e e.attributes w
  let tag := tagText e attributes w
  if e.closed then
    return .element (if e.void then tag ++ "/>" else tag ++ "></" ++ e.name ++ ">") "" []
  else return .element (tag ++ ">") ("</" ++ e.name ++ ">") (← generateBody path body)

def labelled (text : String) (path : List Nat) (code : String → Gen String) :
    Gen (List Static) := do
  let label ← labelText text
  let el ← nameAt path
  emit (← code el)
  return [.label label]

def generateTag (body : List Part) (place : Place) : Gen (List Static) := do
  if e.isComponent then
    labelled e.name place.path (componentCode e body)
  else if e.name == "slot" then
    let name := e.arg.getD "default"
    labelled ("Slot " ++ name) place.path fun el => slotCode name el e body
  else if e.name == "fragment" then
    labelled ("Fragment " ++ e.name) place.path fun el => fragmentUse e el
  else return [← generateElement place.path e body]

/-- A loop that is all its element holds is placed within the element, without a label. -/
def generateEach (header : String) (body : List Part) (place : Place) : Gen (List Static) := do
  if place.onlyChild then
    let parent ← nameAt place.path.dropLast
    emit (← eachCode header body parent true)
    return []
  else labelled header place.path fun el => eachCode header body el false

def generateNode (n : Node) (bodies : List (List Part)) (place : Place) : Gen (List Static) := do
  let body := bodies.headD []
  match n with
  | .raw b => return [.verbatim (b.openTag ++ b.content ++ "</template>")]
  | .comment c _ => return [.verbatim c]
  | .element e _ _ => generateTag e body place
  | .each h _ _ => generateEach h body place
  | .cond h _ hasElse _ _ =>
    let alt := if hasElse then some ((bodies.drop 1).headD []) else none
    labelled h place.path (conditionCode h body alt)
  | .await h _ th _ ch _ _ =>
    let fulfilled := th.map fun t => (t, (bodies.drop 1).headD [])
    let rejected := ch.map fun c => (c, (bodies.drop 2).headD [])
    labelled h place.path (awaitCode h body fulfilled rejected)
  | .sysTag h _ =>
    match htmlOf? h with
    | none => fail .wrongTag
    | some exp => labelled "html" place.path fun el => return htmlCode exp el
  | .fragment h _ _ =>
    emit (← fragmentCode h body)
    return []
  | .text .. | .slot .. => return []

def generate (body : List Node) (holder : Holder) (o : BlockOptions) : Gen Block :=
  buildBlock (planAll generateNode body) holder o

def Gen.start {α : Type} (g : Gen α) (s : Setting) : Except Diagnostic α × Work :=
  ((g.run s).run).run {}

end ReactiveMarkup.Template
