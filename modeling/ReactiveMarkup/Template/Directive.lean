import ReactiveMarkup.Template.Block

/-! # Attributes of elements

An attribute either stays in the template or is bound by code. Directives are told apart by their
first character or by the word before a colon.
-/

namespace ReactiveMarkup.Template

open Markup (Attribute Element)

variable (element : Gen String) (e : Element)

inductive Directive where
  | event (spec : String)
  | twoWay (spec : String)
  | action (name : Option String)
  | named (name : String) (argument : Option String)
  deriving DecidableEq, Repr

structure Reading where
  directive : Directive
  value : Option String
  deriving DecidableEq, Repr

def braced? (s : String) : Option String :=
  (Expression.unwrapChars s.toList).map String.ofList

def splitDirective? (name : String) : Option (String × String) :=
  let cs := name.toList
  let word := cs.takeWhile Text.isWord
  match cs.drop word.length with
  | ':' :: rest => if word.isEmpty then none else some (String.ofList word, String.ofList rest)
  | _ => none

def readDirective (a : Attribute) : Except Fault Reading :=
  match a.name.toList with
  | '@' :: rest => .ok { directive := .event (String.ofList rest), value := a.value }
  | ':' :: rest => .ok { directive := .twoWay (String.ofList rest), value := a.value }
  | '*' :: rest =>
    let arg := String.ofList rest
    if (braced? arg).isSome then
      if a.value.isSome then .error (.wrongValue a.content)
      else .ok { directive := .action none, value := some arg }
    else .ok { directive := .action (some arg), value := a.value }
  | _ =>
    match a.value, braced? a.name with
    | none, some inner => .ok { directive := .named inner none, value := some a.name }
    | _, _ =>
      .ok {
        value := a.value
        directive := match splitDirective? a.name with
          | some ("on", arg) => .event arg
          | some ("bind", arg) => .twoWay arg
          | some ("use", arg) => .action (some arg)
          | some (name, arg) => .named name (some arg)
          | none => .named a.name none }

def spreadOf? (a : Attribute) : Option String :=
  match a.value, braced? a.name with
  | none, some inner => after? "..." inner
  | _, _ => none

structure Bound where
  tag : Option String := none
  code : Option String := none
  deriving DecidableEq, Repr

structure ElementWork where
  classes : List String
  spread : Option String := none
  classesDone : Bool := false
  deriving DecidableEq, Repr

variable (w : ElementWork) (a : Attribute)

def ElementWork.addClass (name : String) : ElementWork :=
  if name ∈ w.classes then w else { w with classes := w.classes ++ [name] }

def expressionOf (value : Option String) (content : String) : Gen String := do
  let exp := (value.bind braced?).getD ""
  require (!exp.isEmpty) (.content content)
  return exp

def mentionsElement (exp : String) : Bool := Text.contains exp "$element"

/-- Code for an element, whose variable `element` gives. If `exp` mentions the element, a variable
for it is declared around the code. -/
def withElement (exp : String) (element : Gen String) (code : String → String) : Gen String := do
  let el ← element
  return if mentionsElement exp then
      s!"\x7b\nlet $element={el};\n" ++ code "$element" ++ "\n\x7d"
    else code el

/-! ## Events -/

/-- Modifiers in the order given; a key that was tested for prevents the default once. -/
def modifiersCode (names : List String) : Except Fault String := do
  let step (acc : String × Bool × Bool) (name : String) : Except Fault (String × Bool × Bool) :=
    let (code, needed, inserted) := acc
    match name with
    | "preventDefault" =>
      if inserted then .ok acc else .ok (code ++ "$event.preventDefault();", needed, true)
    | "stopPropagation" => .ok (code ++ "$event.stopPropagation();", needed, inserted)
    | "enter" => .ok (code ++ "if($event.keyCode != 13) return;", true, inserted)
    | "escape" => .ok (code ++ "if($event.keyCode != 27) return;", true, inserted)
    | other => .error (.wrongModifier other)
  let (code, needed, inserted) ← names.foldlM step ("", false, false)
  return if needed && !inserted then code ++ "$event.preventDefault();" else code

def eventCall (target event body : String) : String :=
  s!"$runtime.addEvent($cd, {target}, \"{event}\", ($event) => \x7b {body} \x7d);"

def handlerCall (target event modifiers handler : String) : String :=
  s!"$runtime.addEvent($cd, {target}, \"{event}\", ($event) => \x7b {modifiers} " ++
    s!"{handler}($event); $$apply();\x7d);"

def liftFault {α : Type} (r : Except Fault α) : Gen α :=
  match r with
  | .ok a => return a
  | .error f => fail f

def namedHandler (event modifiers handler : String) : Gen String := do
  checkName handler
  return handlerCall (← element) event modifiers handler

def expressionHandler (event modifiers exp : String) : Gen String := do
  match ← kindOf exp with
  | some .identifier => namedHandler element event modifiers exp
  | some .function =>
    let name ← fresh "fn"
    withElement exp element fun target =>
      s!"const {name} = {exp};\n" ++ handlerCall target event modifiers name
  | none =>
    withElement exp element fun target =>
      eventCall target event s!"{modifiers} {exp}; $$apply();"

def eventCode (spec : String) (value : Option String) (content : String) : Gen String := do
  if spec == "@" then
    require value.isNone (.content content)
    let el ← element
    return "\x7b\nfor(let event in $option.events) \x7b\n$runtime.addEvent($cd, " ++ el ++
      ", event, $option.events[event]);\n\x7d\n\x7d"
  else
    match directiveParts spec with
    | [] => fail (.content content)
    | event :: options =>
      match value, options.getLast? with
      | some _, _ =>
        let exp ← expressionOf value content
        require (!event.isEmpty) (.content content)
        expressionHandler element event (← liftFault (modifiersCode options)) exp
      | none, some handler =>
        require (!event.isEmpty) (.content content)
        namedHandler element event (← liftFault (modifiersCode options.dropLast)) handler
      | none, none =>
        return eventCall (← element) event
          s!"const fn = $option.events.{event}; if(fn) fn($event);"

/-! ## Two-way bindings -/

def twoWayTargets : List String :=
  ["value", "checked", "valueAsNumber", "valueAsDate", "selectedIndex"]

def twoWayProperty (target : String) : String :=
  let inputType := if e.name == "input" then (e.attribute? "type").bind (·.value) else none
  let isNumber := inputType = some "number" || inputType = some "range"
  if target == "value" && isNumber then "valueAsNumber" else target

def twoWayExpression (target : String) (options : List String) (value : Option String)
    (content : String) : Gen (String × List String) := do
  match value with
  | some _ => return (← expressionOf value content, options)
  | none => return (options.getLast?.getD target, options.dropLast)

def twoWayCode (spec : String) (value : Option String) (content : String) : Gen String := do
  let parts := directiveParts spec
  let target := parts.headD ""
  require (!target.isEmpty) (.content content)
  let (exp, options) ← twoWayExpression target (parts.drop 1) value content
  require (twoWayTargets.contains target) (.notSupported content)
  require options.isEmpty (.content content)
  requireName exp (.wrongBindName content)
  let property := twoWayProperty e target
  let except := match w.spread with
    | some s => s!"{s}.except(['{property}']);\n"
    | none => ""
  let el ← element
  let arg ← fresh "a"
  return except ++ s!"$runtime.bindInput($cd, {el}, '{property}', () => {exp}, " ++
    s!"{arg} => \x7b{exp} = {arg}; $$apply();\x7d);"

/-! ## Classes -/

def toggledClass : String := (after? "class:" a.name).getD ""

def toggleExpression : Gen String := do
  let name := toggledClass a
  require (!name.isEmpty) (.content a.content)
  match a.value with
  | some v => unwrap v
  | none => return name

def toggleCode : Gen String := do
  let exp ← toggleExpression a
  let el ← element
  return s!"$runtime.bindClass($cd, {el}, () => !!({exp}), '{toggledClass a}');"

def isClassAttribute : Bool := a.name == "class" || startsWith "class:" a.name

/-- Whether a class attribute needs its names resolved when the component runs: it is computed, or
names a class that an enclosing component may set. -/
def needsResolver (scope : Style.Scope) (a : Attribute) : Bool :=
  if a.name == "class" then
    let v := a.value.getD ""
    hasBrace v || (Text.words v).any fun n => (scope.aliasOf? n).isSome
  else (scope.aliasOf? (toggledClass a)).isSome

def classSummand : Gen String := do
  if a.name == "class" then interpolate (a.value.getD "")
  else
    let exp ← toggleExpression a
    return s!"({exp}) ? " ++ backquoted (← quoted (toggledClass a)) ++ " : ''"

def scopedClasses (scope : Style.Scope) (element : Gen String) (e : Element) (w : ElementWork) :
    Gen (Bound × ElementWork) := do
  if w.classesDone then return ({}, w)
  else
    let w := { w with classesDone := true }
    let attributes := e.attributes.filter isClassAttribute
    if attributes.any (needsResolver scope) then
      let own := if w.classes.contains scope.id then s!",'{scope.id}'" else ""
      modify fun s => { s with usesResolver := true }
      let exp := ") + ' ' + (".intercalate (← attributes.mapM classSummand)
      let el ← element
      let code := s!"$watchReadOnly($cd, () => $$resolveClass(({exp}){own}), " ++
        s!"value => $runtime.setClassToElement({el}, value));"
      return ({ code := some code }, { w with classes := [] })
    else
      let names := (attributes.filter (·.name == "class")).flatMap fun a =>
        Text.words (a.value.getD "")
      let toggles ← (attributes.filter (·.name != "class")).mapM (toggleCode element)
      let code := if toggles.isEmpty then none else some (lines toggles)
      return ({ code }, names.foldl ElementWork.addClass w)

/-! ## Plain attributes -/

def elementProperties : List String :=
  ["hidden", "checked", "value", "disabled", "selected", "innerHTML", "innerText", "placeholder",
    "src"]

def plainCode (name : String) (value : Option String) (content : String) : Gen Bound := do
  let fixed (text : String) : Bound :=
    match w.spread with
    | some s => { code := some s!"{s}.attr('{name}', '{text}');" }
    | none => { tag := some content }
  match value with
  | none => return fixed ""
  | some v =>
    if !hasBrace v then return fixed v
    else
      let exp ← interpolate v
      match w.spread with
      | some s => return { code := some s!"{s}.prop('{name}', () => {exp});" }
      | none =>
        let code ← withElement v element fun target =>
          if elementProperties.contains name then
            s!"$watchReadOnly($cd, () => ({exp}), (value) => \x7b{target}.{name} = value;\x7d);"
          else s!"$runtime.bindAttribute($cd, {target}, '{name}', () => ({exp}));"
        return { code := some code }

def classCode (element : Gen String) (e : Element) (w : ElementWork) (directive : Bool)
    (a : Attribute) : Gen (Bound × ElementWork) := do
  match (← read).scope with
  | some scope => scopedClasses scope element e w
  | none =>
    if directive then return ({ code := some (← toggleCode element a) }, w)
    else if a.value.any hasBrace then
      return (← plainCode element w "class" a.value a.content, w)
    else return ({ tag := some a.content }, w)

/-! ## Every attribute -/

def spreadCode (object : String) : Gen String := do
  requireName object (.wrongSpread a.content)
  match w.spread with
  | some s => return s!"{s}.spread(() => {object});"
  | none => fail .missingSpread

def styleCode (property : String) (value : Option String) (content : String) : Gen String := do
  let exp ← match value with
    | some _ => expressionOf value content
    | none => pure property
  withElement exp element fun target =>
    s!"$runtime.bindStyle($cd, {target}, '{property}', () => ({exp}));"

def actionCode (name : Option String) (value : Option String) (content : String) : Gen String := do
  match name with
  | some n =>
    require (Expression.isSimpleName n) (.wrongAction n)
    checkName n
    let args ← match value with
      | some _ => do pure (", () => [" ++ (← expressionOf value content) ++ "]")
      | none => pure ""
    let el ← element
    return s!"$runtime.bindAction($cd, {el}, {n}{args});"
  | none =>
    let exp ← expressionOf value content
    let el ← element
    return s!"$tick(() => \x7b let $element={el}; {exp}; $$apply(); \x7d);"

def referenceCode (target : String) : Gen String := do
  require (Expression.isSimpleName target) (.content target)
  checkName target
  let el ← element
  return s!"{target}={el};"

def attributeCode : Gen (Bound × ElementWork) := do
  let code (act : Gen String) : Gen (Bound × ElementWork) := do
    return ({ code := some (← act) }, w)
  match spreadOf? a with
  | some object => code (spreadCode w a object)
  | none =>
    let r ← liftFault (readDirective a)
    match r.directive with
    | .event spec => code (eventCode element spec r.value a.content)
    | .twoWay spec => code (twoWayCode element e w spec r.value a.content)
    | .action name => code (actionCode element name r.value a.content)
    | .named name argument =>
      match after? "#" name with
      | some target => code (referenceCode element target)
      | none =>
        match name, argument with
        | "style", some property =>
          if property.isEmpty then
            return (← plainCode element w "style:" r.value a.content, w)
          else code (styleCode element property r.value a.content)
        | "class", argument => classCode element e w argument.isSome a
        | name, some argument =>
          return (← plainCode element w (name ++ ":" ++ argument) r.value a.content, w)
        | name, none => return (← plainCode element w name r.value a.content, w)

end ReactiveMarkup.Template
