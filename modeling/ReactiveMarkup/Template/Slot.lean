import ReactiveMarkup.Template.Block

/-! # Slots and fragments

A slot is a place that the enclosing component may fill; a fragment is a named piece of markup that
may be shown in several places.
-/

namespace ReactiveMarkup.Template

open Markup (Attribute Element)

def longForm (a : Attribute) : Gen (String × String) := do
  if startsWith "\x7b" a.name then
    require a.value.isNone (.content a.content)
    return (← unwrap a.name, a.name)
  else
    match a.value with
    | some v => return (a.name, v)
    | none => fail (.content a.content)

/-! ## Slots -/

def slotArgument (a : Attribute) : Gen String := do
  let (name, value) ← longForm a
  require (Expression.isSimpleName name) (.wrongName name)
  if startsWith "\x7b" value then
    let exp ← unwrap value
    return s!"if('set_{name}' in s) \x7b\n$watch($cd, () => ({exp}), s.set_{name}, " ++
      "\x7bro: true, cmp: $runtime.$$compareDeep\x7d);\n\x7d"
  else
    return s!"if('set_{name}' in s) s.set_{name}(" ++ backquoted (← quoted value) ++ ");"

def slotDefault (body : List Part) (label : String) : Gen String := do
  if body.isEmpty then return ""
  else
    let b ← buildBlock body .element {}
    let fragment ← fragmentOf b
    return s!" else \x7b\n{b.source};\nlet $tpl = {fragment};\n{b.binder}($cd, $tpl);\n" ++
      s!"{label}.parentNode.insertBefore($tpl, {label}.nextSibling);\n\x7d"

def slotCode (name label : String) (e : Element) (body : List Part) : Gen String := do
  let args ← e.attributes.mapM slotArgument
  let fallback ← slotDefault body label
  return s!"\x7b\nlet $slot = $option.slots && $option.slots.{name};\nif($slot) \x7b\n" ++
    s!"let s = $slot({label}, $component);\n$runtime.cd_onDestroy($cd, s.destroy);\n" ++
    lines args ++ s!"\n\x7d{fallback};\n\x7d"

/-! ## Fragments -/

/-- The name and the parameters of a fragment header, from the first place where they are well
formed. -/
def fragmentHeader? : List Char → Option (String × String)
  | [] => none
  | c :: rest =>
    let lead := "#fragment:".toList
    let here : Option (String × String) :=
      if lead.isPrefixOf (c :: rest) then
        let tail := (c :: rest).drop lead.length
        let name := tail.takeWhile fun c => !Text.isBlank c
        let args := tail.drop name.length
        if name.isEmpty || args.contains '\n' then none
        else some (String.ofList name, Text.trim (String.ofList args))
      else none
    match here with
    | some h => some h
    | none => fragmentHeader? rest

def parameterCode (a : String) : String :=
  s!"let {a};\nif($$args.{a} != null) \x7b\nif(typeof $$args.{a} == 'function') \x7b\n" ++
    s!"$cd.prefix.push(() => \x7b{a} = $$args.{a}()\x7d);\n\x7d else {a} = $$args.{a};\n\x7d"

def fragmentParameter (a : String) : Gen String := do
  require (Expression.isSimpleName a) (.wrongName a)
  return parameterCode a

def fragmentParameters (args : String) : Gen (List String) :=
  if args.isEmpty then return [] else (commaItems args).mapM fragmentParameter

def fragmentCode (header : String) (body : List Part) : Gen String := do
  match fragmentHeader? header.toList with
  | none => fail (.wrongFragment header)
  | some (name, args) =>
    require (Expression.isSimpleName name) (.wrongName name)
    let head ← fragmentParameters args
    if body.isEmpty then
      warn s!"Empty fragment: '{header}'"
      return s!"function $fragment_{name}() \x7b\x7d;"
    else
      let b ← buildBlock body .other {}
      let fragment ← fragmentOf b
      return s!"function $fragment_{name}($cd, label, $option) \x7b\nlet $$args = $option.args;\n" ++
        lines head ++ s!"\n{b.source};\nlet $tpl = {fragment};\n{b.binder}($cd, $tpl);\n" ++
        "label.parentNode.insertBefore($tpl, label.nextSibling);\n\x7d;"

def callbackOf (exp : String) : Gen String := do
  match ← kindOf exp with
  | some .identifier =>
    checkName exp
    return exp
  | some .function => return exp
  | none => return "($event) => \x7b" ++ (← quoted exp) ++ "\x7d"

def eventOf? (a : Attribute) : Option String :=
  (after? "@" a.name).orElse fun _ => after? "on:" a.name

def fragmentEvent (spec : String) (a : Attribute) : Gen String := do
  if spec == "@" then return "events = $option.events;"
  else
    let parts := splitChars (· == ':') spec
    let event := parts.headD ""
    require (Expression.isSimpleName event) (.wrongName event)
    match a.value, (parts.drop 1).getLast? with
    | some v, _ =>
      let exp ← unwrap v
      return s!"events.{event} = " ++ (← callbackOf exp) ++ ";"
    | none, some handler =>
      checkName handler
      return s!"events.{event} = {handler};"
    | none, none => return s!"events.{event} = $option.events.{event};"

def fragmentArgument (a : Attribute) : Gen String := do
  let (name, value) ← longForm a
  require (Expression.isSimpleName name) (.wrongName name)
  if hasBrace value then return s!"args.{name} = () => (" ++ (← unwrap value) ++ ");"
  else return s!"args.{name} = " ++ backquoted (← quoted value) ++ ";"

def fragmentUse (e : Element) (label : String) : Gen String := do
  let name := e.arg.getD ""
  require (Expression.isSimpleName name) (.wrongName name)
  let head ← e.attributes.mapM fun a =>
    match eventOf? a with
    | some spec => fragmentEvent spec a
    | none => fragmentArgument a
  return "\x7b\nlet args = \x7b\x7d;\nlet events = \x7b\x7d;\n" ++ lines head ++
    s!"\n$fragment_{name}($cd, {label}, \x7bargs, events\x7d);\n\x7d"

end ReactiveMarkup.Template
