import ReactiveMarkup.Template.Block

/-! # Control blocks -/

namespace ReactiveMarkup.Template

variable (header : String)

def guarded : BlockOptions := { guarded := true }

def isNewlineFree (cs : List Char) : Bool := !cs.contains '\n'

/-! ## Conditions -/

def conditionOf? : Option String :=
  ((after? "#if " header).map Text.trim).filter (!·.isEmpty)

/-- The statements before the call that shows a condition, and the call, which begins as `shown`. -/
def conditionCall (shown : String) (alt : Option Block) : Gen (List String × String) := do
  match alt with
  | some a =>
    let other ← fragmentOf a
    return ([s!"let elsefr = {other};\n{a.source}"], s!"{shown}, elsefr, {a.binder});")
  | none => return ([], s!"{shown});")

def conditionCode (main : List Part) (alt : Option (List Part)) (label : String) : Gen String := do
  match conditionOf? header with
  | none => fail (.wrongBinding header)
  | some exp =>
    let name ← fresh "ifBlock"
    let main ← buildBlock main .other guarded
    let alt ← alt.mapM fun body => buildBlock body .other guarded
    let fragment ← fragmentOf main
    let shown := s!"$runtime.$$ifBlock($cd, $parentElement, () => !!({exp}), mainfr, {main.binder}"
    let (before, call) ← conditionCall shown alt
    return lines ([s!"function {name}($cd, $parentElement) \x7b"] ++ before ++
      [s!"let mainfr = {fragment};\n{main.source}", call, s!"\x7d;\n{name}($cd, {label});"])

/-! ## Loops -/

/-- A loop over `array`. With `fields` the item has no name of its own but these parts of it. -/
structure EachHeader where
  array : String
  item : String
  index : String
  key : Option String
  fields : List String
  deriving DecidableEq, Repr

def splitKey? (pattern : List Char) : Option (List Char × List Char) :=
  match Text.trimEnd pattern |>.reverse with
  | ')' :: back =>
    let inner := back.takeWhile fun c => c != '(' && c != ')'
    match back.drop inner.length with
    | '(' :: before =>
      let lead := before.reverse
      let line := lead.takeWhile (· != '\n')
      if inner.isEmpty || !(lead.drop line.length).all Text.isBlank then none
      else some (line, inner.reverse)
    | _ => none
  | _ => none

def splitEach? : Option (String × List Char) :=
  match after? "#each" header with
  | none => none
  | some rest =>
    let cs := rest.toList
    let afterLead := Text.trimStart cs
    let array := afterLead.takeWhile fun c => !Text.isBlank c
    let afterArray := afterLead.drop array.length
    match Text.trimStart afterArray with
    | 'a' :: 's' :: tail =>
      let blanks := tail.takeWhile Text.isBlank
      let pattern := tail.drop blanks.length
      let hasGaps := cs.head?.any Text.isBlank && !array.isEmpty &&
        afterArray.head?.any Text.isBlank && !blanks.isEmpty
      if !hasGaps then none
      else if !pattern.isEmpty then some (String.ofList array, pattern)
      else if 1 < blanks.length then some (String.ofList array, blanks.drop (blanks.length - 1))
      else none
    | _ => none

def splitPattern? (pattern : String) : Option (String × String × List String) :=
  match pattern.toList with
  | '\x7b' :: rest =>
    let inner := rest.takeWhile (· != '\x7d')
    match rest.drop inner.length with
    | _ :: tail =>
      if inner.isEmpty || !isNewlineFree tail then none
      else
        let fields := commaItems (Text.trim (String.ofList inner))
        let tail := Text.trim (String.ofList tail)
        let index := Text.trim ((after? "," tail).getD tail)
        some ("$$item", if index.isEmpty then "$index" else index, fields)
    | [] => none
  | _ =>
    match commaItems pattern with
    | [item] => some (item, "$index", [])
    | [item, index] => some (item, index, [])
    | _ => none

def parseEach (kindOf : String → Option Expression.Kind) (header : String) :
    Except Fault EachHeader :=
  let wrong := Fault.wrongEach header
  match splitEach? header with
  | none => .error wrong
  | some (array, whole) =>
    let (pattern, key) := match splitKey? whole with
      | some (pattern, key) => (pattern, some (Text.trim (String.ofList key)))
      | none => (whole, none)
    match splitPattern? (Text.trim (String.ofList pattern)) with
    | none => .error wrong
    | some (item, index, fields) =>
      if !Expression.isSimpleName item then .error (.wrongName item)
      else if !Expression.isSimpleName index then .error (.wrongName index)
      else
        match key.filter (· != item) with
        | none => .ok { array, item, index, key := none, fields }
        | some k =>
          if kindOf k = some .identifier then
            .ok { array, item, index, key := some k, fields }
          else .error (.wrongKey k)

def fieldsCode (fields : List String) : String :=
  if fields.isEmpty then ""
  else
    let assign := ", ".intercalate (fields.map fun f => s!"{f} = $$item.{f}")
    s!"var {assign};\n$ctx.cd.prefix.push(() => \x7b\n{assign};\n\x7d);\n"

def keyCode (h : EachHeader) : String :=
  match h.key with
  | none => "let getKey = $runtime.noop;"
  | some k =>
    if k == h.index then "function getKey(_, i) \x7breturn i;\x7d"
    else s!"function getKey({h.item}) \x7breturn {k};\x7d"

/-- A body without blank text at its ends; of a body of blanks one remains. -/
def trimBody (parts : List Part) : List Part :=
  if parts.all Part.isBlankText then parts.take 1
  else ((parts.dropWhile Part.isBlankText).reverse.dropWhile Part.isBlankText).reverse

def eachCode (body : List Part) (el : String) (onlyChild : Bool) : Gen String := do
  let b ← buildBlock (trimBody body) .other guarded
  match parseEach (← read).kindOf header with
  | .error f => fail f
  | .ok h =>
    let fragment ← fragmentOf b
    let only := if onlyChild then "1" else "0"
    return s!"\x7b\nfunction bind($ctx, $template, {h.item}, {h.index}) \x7b\n" ++
      s!"{fieldsCode h.fields}{b.source};\n{b.binder}($ctx.cd, $template);\n" ++
      s!"$ctx.rebind = function(_{h.index}, _{h.item}) \x7b\n{h.index} = _{h.index};\n" ++
      s!"{h.item} = _{h.item};\n\x7d;\n\x7d;\n{keyCode h};\nlet itemTemplate = {fragment};\n" ++
      s!"$runtime.$$eachBlock($cd, {el}, {only}, () => ({h.array}), getKey, itemTemplate, bind);\n\x7d"

/-! ## Awaits -/

/-- The expression of an await header, and the name that its value has when the whole body is shown
for it. -/
def awaitOf? : Option (String × Option String) :=
  match after? "#await" (Text.trim header) with
  | some rest =>
    if rest.toList.head?.any Text.isBlank then
      match Text.words rest with
      | [exp] => some (exp, none)
      | [exp, "then", name] => some (exp, some name)
      | _ => none
    else none
  | none => none

def outcomeName? : Option String :=
  let cs := Text.trimChars header.toList
  let word := cs.takeWhile fun c => !Text.isBlank c
  match cs.drop word.length with
  | [] => none
  | rest =>
    let name := Text.trimStart rest
    if isNewlineFree name then some (String.ofList (Text.trimChars name)) else none

def outcomeParameters : Gen (List String) := do
  match outcomeName? header with
  | none => return []
  | some name =>
    require (Expression.isSimpleName name) (.wrongName name)
    return [name]

def awaitPart (body : List Part) (parameters : List String) (template : String) :
    Gen (List String × String × String) := do
  if body.isEmpty then return ([], "null", "null")
  else
    let b ← buildBlock body .other { guarded := true, parameters }
    let fragment ← fragmentOf b
    return ([b.source, s!"const {template} = {fragment};"], b.binder, template)

abbrev Outcome := Option (String × List Part)

def outcomeCode (o : Outcome) (template : String) : Gen (List String × String × String) := do
  match o with
  | none => return ([], "null", "null")
  | some (header, body) => awaitPart body (← outcomeParameters header) template

/-- The parts of an await before and after its value is there. With a name in the header the whole
body is shown for the value. -/
def awaitParts (name : Option String) (main : List Part) (fulfilled : Outcome) :
    Gen ((List String × String × String) × (List String × String × String)) := do
  match name, fulfilled with
  | some _, some _ => fail (.wrongAwait header)
  | some n, none =>
    require (Expression.isSimpleName n) (.wrongName n)
    return (([], "null", "null"), ← awaitPart main [n] "tpl_then")
  | none, some (h, body) =>
    let parameters ← outcomeParameters h
    let first ← awaitPart main [] "tpl_main"
    return (first, ← awaitPart body parameters "tpl_then")
  | none, none => return (← awaitPart main [] "tpl_main", ([], "null", "null"))

def awaitCode (main : List Part) (fulfilled rejected : Outcome) (el : String) : Gen String := do
  match awaitOf? header with
  | none => fail (.wrongAwait header)
  | some (exp, name) =>
    let (first, second) ← awaitParts header name main fulfilled
    let third ← outcomeCode rejected "tpl_catch"
    let call := s!"$runtime.$$awaitBlock($cd, {el}, () => {exp}, $$apply, " ++
      ", ".intercalate [first.2.1, second.2.1, third.2.1, first.2.2, second.2.2, third.2.2] ++ ");"
    return "\x7b\n" ++ lines (first.1 ++ second.1 ++ third.1 ++ [call]) ++ "\n\x7d"

/-! ## Raw markup -/

def htmlOf? : Option String :=
  match after? "@" header with
  | none => none
  | some rest =>
    let cs := rest.toList
    let word := cs.takeWhile Text.isWord
    let tail := cs.drop word.length
    let exp := Text.trimStart tail
    if String.ofList word == "html" && tail.head?.any Text.isBlank && isNewlineFree exp then
      some (String.ofList exp)
    else none

def htmlCode (exp label : String) : String :=
  s!"$runtime.$$htmlBlock($cd, {label}, () => ({exp}));\n"

end ReactiveMarkup.Template
