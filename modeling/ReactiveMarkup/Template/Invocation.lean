import ReactiveMarkup.Template.Slot

/-! # Component tags

A component tag calls another component: properties, spreads, two-way bindings, events, classes and
slots are collected into option objects, and a call passes them on. Properties that follow a spread
and spreads that follow a property are written to a level of their own, so that the later wins.
-/

namespace ReactiveMarkup.Template

open Markup (Attribute Element Node)

inductive Written where
  | twoWay
  | spread
  | computed
  | fixed
  deriving DecidableEq, Repr

/-- A call under construction. `head` fills the option objects, `binds` works on the called
component. -/
structure Invocation where
  head : List String := []
  binds : List String := []
  passesPush : Bool := false
  passesClass : Bool := false
  passesSlots : Bool := false
  passesEvents : Bool := false
  forwardsEvents : Bool := false
  boundEvents : List String := []
  level : Nat := 0
  written : Option Written := none
  deriving DecidableEq, Repr

variable (a : Attribute) (i : Invocation)

namespace Invocation

def addHead (code : String) : Invocation := { i with head := i.head ++ [code] }

def addBind (code : String) : Invocation := { i with binds := i.binds ++ [code] }

def target : String :=
  if 0 < i.level then s!"$$lvl[{i.level}]" else "props"

def writeProperty (w : Written) : Invocation :=
  { i with
    level := if i.written = some .spread then i.level + 1 else i.level
    written := some w }

def writeSpread : Invocation :=
  { i with
    level := if i.written.isSome then i.level + 1 else i.level
    written := some .spread
    passesPush := true }

def addEvent (event callback : String) : Invocation :=
  let code := if i.forwardsEvents || i.boundEvents.contains event then
      s!"$runtime.$$addEventForComponent(events, '{event}', {callback});"
    else s!"events.{event} = {callback};"
  { i.addHead code with passesEvents := true, boundEvents := event :: i.boundEvents }

end Invocation

/-! ## Slots -/

structure SlotContent where
  name : String
  header : Option String
  body : List Part

def slotName (header : String) : String :=
  match after? "#slot:" header with
  | some rest =>
    let name := rest.toList.takeWhile fun c => !Text.isBlank c
    if name.isEmpty then "default" else String.ofList name
  | none => "default"

def slotParameters? (header : String) : Option (List String) :=
  match after? "#slot" header with
  | none => none
  | some rest =>
    match rest.toList.dropWhile fun c => !Text.isBlank c with
    | [] => none
    | tail => some (commaItems (Text.trim (String.ofList tail)))

def addSlotContent (slots : List SlotContent) (p : Part) : Except Fault (List SlotContent) :=
  match p.node with
  | .slot header _ _ =>
    let name := slotName header
    if slots.any (·.name == name) then .error (.doubleSlot name)
    else .ok (slots ++ [{ name, header := some header, body := p.body }])
  | _ => .ok slots

def slotsOf (body : List Part) : Except Fault (List SlotContent) := do
  let slots ← body.foldlM addSlotContent []
  let rest := body.filter fun p => match p.node with
    | .slot .. => false
    | _ => true
  if slots.any (·.name == "default") || rest.all Part.isBlankText then return slots
  else return slots ++ [{ name := "default", header := none, body := rest }]

def setterCode (p : String) : String :=
  s!",\nset_{p}: (_{p}) => \x7b{p} = _{p}; $$apply();\x7d"

def slotContentCode (s : SlotContent) : Gen String := do
  require (Expression.isSimpleName s.name) (.wrongSlotName s.name)
  let parameters := (s.header.bind slotParameters?).getD []
  parameters.forM fun p => require (Expression.isSimpleName p) .wrongSlotProp
  let args := if parameters.isEmpty then "" else "let " ++ ", ".intercalate parameters ++ ";"
  let setters := String.join (parameters.map setterCode)
  let b ← buildBlock s.body .other {}
  let fragment ← fragmentOf b
  return s!"slots.{s.name} = function($label, $component) \x7b\nlet $childCD = $cd.new();\n" ++
    s!"let $tpl = {fragment};\n{args}\n{b.source};\n{b.binder}($childCD, $tpl);\n" ++
    "$label.parentNode.insertBefore($tpl, $label.nextSibling);\nreturn \x7b\n" ++
    s!"destroy: () => \x7b\n$childCD.destroy();\n\x7d{setters}\n\x7d;\n\x7d;"

def openInvocation (body : List Part) : Gen Invocation := do
  if body.isEmpty then return {}
  else
    match slotsOf body with
    | .error f => fail f
    | .ok slots =>
      slots.foldlM (fun i s => do
        return { i.addHead (← slotContentCode s) with passesSlots := true }) {}

/-! ## Attributes -/

def deepOption : String := "\x7bro: true, cmp: $runtime.$$compareDeep\x7d"

def underscored (s : String) : String :=
  String.ofList (s.toList.map fun c => if c == '.' then '_' else c)

def boundExpression (inner : String) (a : Attribute) : Gen String :=
  match a.value with
  | some v => unwrap v
  | none => return inner

def addTwoWay (inner : String) (a : Attribute) (i : Invocation) : Gen Invocation := do
  let outer ← boundExpression inner a
  require (Expression.isSimpleName inner) (.wrongProperty inner)
  requireName outer (.wrongBindName outer)
  let w ← fresh "$$w"
  let setter := underscored outer
  let i := { i with written := some .twoWay, passesPush := true }
  let i := i.addHead (
    s!"const {w} = $watch($cd, () => ({outer}), _{inner} => \x7b\nprops.{inner} = _{inner};\n" ++
    s!"{w}.pair && {w}.pair({w}.value);\n$$push();\n\x7d, {deepOption});\n$runtime.fire({w});")
  return i.addBind (
    s!"$runtime.bindPropToComponent($child, '{inner}', {w}, _{setter} => \x7b\n" ++
    s!"{outer} = _{setter};\n$$apply();\n\x7d);")

def addSpread (object : String) (i : Invocation) : Gen Invocation := do
  let i := i.writeSpread
  requireName object .wrongProp
  return i.addHead (
    s!"$runtime.fire($watch($cd, () => ({object}), (value) => \x7b\n" ++
    s!"$runtime.spreadObject({i.target}, value);\n$$push();\n\x7d, " ++
    "\x7bro: true, cmp: $runtime.$$deepComparator(0)\x7d));")

def addComponentEvent (spec : String) (a : Attribute) (i : Invocation) : Gen Invocation := do
  let parts := directiveParts spec
  let event := parts.headD ""
  let options := parts.drop 1
  require (!event.isEmpty) (.content a.content)
  match a.value, options.getLast? with
  | some v, _ =>
    let exp ← unwrap v
    require options.isEmpty (.content a.content)
    return i.addEvent event (← callbackOf exp)
  | none, some handler =>
    require options.dropLast.isEmpty (.content a.content)
    checkName handler
    return i.addEvent event handler
  | none, none => return i.addEvent event s!"$option.events.{event}"

def classSlot? (name : String) : Option String :=
  match splitChars (· == ':') name with
  | [_] => some "$$main"
  | [_, named] => if named.isEmpty then none else some named
  | _ => none

def addComponentClass : Gen Invocation := do
  match classSlot? a.name with
  | none => fail (.wrongClass a.content)
  | some m =>
    match a.value with
    | none => fail (.content a.content)
    | some v =>
      let exp ← interpolate v
      let f ← fresh "$$pf"
      modify fun w => { w with usesResolver := true }
      let i := { i with passesClass := true, passesPush := true }
      return i.addHead (
        s!"const {f} = () => $$resolveClass({exp});\n$class['{m}'] = {f}();\n" ++
        s!"$watch($cd, {f}, (result) => \x7b\n$class['{m}'] = result;\n$$push();\n\x7d, " ++
        s!"\x7bro: true, value: $class['{m}']\x7d);")

def addProperty (name : String) (value : Option String) (i : Invocation) : Gen Invocation := do
  require (Expression.isSimpleName name) (.wrongProperty name)
  match value with
  | none =>
    let i := i.writeProperty .fixed
    return i.addHead s!"{i.target}.{name} = true;"
  | some v =>
    if hasBrace v then
      let exp ← interpolate v
      let i := { i.writeProperty .computed with passesPush := true }
      return i.addHead (
        s!"$runtime.fire($watch($cd, () => ({exp}), _{name} => \x7b\n" ++
        s!"{i.target}.{name} = _{name};\n$$push();\n\x7d, {deepOption}));")
    else
      let i := i.writeProperty .fixed
      return i.addHead (s!"{i.target}.{name} = " ++ backquoted (← quoted v) ++ ";")

def addAttribute : Gen Invocation := do
  match after? "#" a.name with
  | some target =>
    require a.value.isNone .wrongRef
    require (Expression.isSimpleName target) (.content target)
    checkName target
    return i.addBind s!"{target} = $child;"
  | none =>
    if startsWith "\x7b" a.name then
      let inner ← unwrap a.name
      match after? "..." inner with
      | some object => addSpread object i
      | none =>
        requireName inner .wrongProp
        addProperty inner (some a.name) i
    else
      match eventOf? a with
      | some spec => addComponentEvent spec a i
      | none =>
        if a.name == "class" || startsWith "class:" a.name then addComponentClass a i
        else addProperty a.name a.value i

def twoWayOf? : Option String :=
  (after? ":" a.name).orElse fun _ => after? "bind:" a.name

/-! ## The call -/

def optionObjects : List String × List String :=
  let entries : List (Bool × String × String) :=
    [(i.passesClass, "let $class = \x7b\x7d;", "$class"),
      (i.passesSlots, "let slots = \x7b\x7d;", "slots"),
      (0 < i.level, s!"let $$lvl = [], props = $runtime.makeTree({i.level}, $$lvl);", "props"),
      (i.level = 0 && i.written.isSome, "let props = \x7b\x7d;", "props"),
      (i.forwardsEvents, "let events = Object.assign(\x7b\x7d, $option.events);", "events"),
      (!i.forwardsEvents && i.passesEvents, "let events = \x7b\x7d;", "events")]
  let used := entries.filter (·.1)
  let push := if i.passesPush then ["let $$push = $runtime.noop;"] else []
  (push ++ used.map (·.2.1), "$$: $component" :: used.map (·.2.2))

def callCode (constructor label : String) (braces : Bool) : String :=
  let (declarations, options) := optionObjects i
  let binds := if i.passesPush then i.binds ++ ["$$push = $child.push;"] else i.binds
  let head := if declarations.isEmpty && i.head.isEmpty then ""
    else lines declarations ++ "\n" ++ lines i.head ++ "\n"
  let call := s!"$runtime.callComponent($cd, {constructor}, {label}, \x7b" ++
    ", ".intercalate options ++ "\x7d);"
  let body := if binds.isEmpty then call
    else s!"let $child = {call}\nif($child) \x7b\n" ++ lines binds ++ "\n\x7d"
  if braces && !(head.isEmpty && binds.isEmpty) then s!"\x7b\n{head}{body}\n\x7d" else head ++ body

def dynamicCode (factory body label exp : String) : String :=
  s!"\x7b\nconst {factory} = ($cd, $ComponentConstructor) => \x7b\n{body}\n\x7d;\n" ++
    s!"let childCD, finalLabel = $runtime.getFinalLabel({label});\n" ++
    s!"$watch($cd, () => ({exp}), ($ComponentConstructor) => \x7b\nif(childCD) \x7b\n" ++
    s!"childCD.destroy();\n$runtime.removeElementsBetween({label}, finalLabel);\n\x7d\n" ++
    "childCD = null;\nif($ComponentConstructor) \x7b\nchildCD = $cd.new();\n" ++
    s!"{factory}(childCD, $ComponentConstructor);\n\x7d\n\x7d);\n\x7d"

def dynamicName (e : Element) : Gen (Option String) := do
  if e.name == "component" then
    match e.arg with
    | none => fail .wrongDynamic
    | some arg => if startsWith "\x7b" arg then return some (← unwrap arg) else return some arg
  else return none

/-- Two-way bindings, forwarding and the choice of a component come before other attributes. -/
def firstAttribute (acc : Invocation × Option String × List Attribute) (a : Attribute) :
    Gen (Invocation × Option String × List Attribute) := do
  let (i, dynamic, rest) := acc
  if a.name == "@@" then return ({ i with forwardsEvents := true }, dynamic, rest)
  else
    match twoWayOf? a with
    | some inner => return (← addTwoWay inner a i, dynamic, rest)
    | none =>
      if a.name == "this" then
        match a.value with
        | none => fail (.content a.content)
        | some v => return (i, some (← unwrap v), rest)
      else return (i, dynamic, rest ++ [a])

def componentCode (e : Element) (body : List Part) (label : String) : Gen String := do
  let dynamic ← dynamicName e
  let i ← openInvocation body
  let (i, dynamic, rest) ← e.attributes.foldlM firstAttribute (i, dynamic, [])
  let i ← rest.foldlM (fun i a => addAttribute a i) i
  match dynamic with
  | none => return callCode i e.name label true
  | some exp =>
    let factory ← fresh "$$comp"
    return dynamicCode factory (callCode i "$ComponentConstructor" label false) label exp

end ReactiveMarkup.Template
