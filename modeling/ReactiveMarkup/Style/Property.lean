import ReactiveMarkup.Style.Value

/-! # Values of known properties

A property whose grammar is known writes its value in the shortest form: equal sides are written
once, initial components are left out, components come in a fixed order.
-/

namespace ReactiveMarkup.Style

open Number (Binary)

variable (p : Part) (ps : List Part)

/-! ## Components -/

def ident? : Part → Option String
  | .leaf (.ident n) _ => some n
  | _ => none

def keyword? (allowed : List String) (p : Part) : Option String :=
  (ident? p).bind fun n => if allowed.contains (toLower n) then some (toLower n) else none

def length? : Part → Option String
  | .leaf (.number n) _ => if n.value.isZero then some "0" else none
  | .leaf (.dimension n u) _ =>
    (lengthUnit? u).map fun unit => if n.value.isZero then "0" else dimensionText n.value unit
  | _ => none

def lengthOrPercent? : Part → Option String
  | .leaf (.percentage n) _ => some (percentText n.value)
  | p => length? p

def number? : Part → Option String
  | .leaf (.number n) _ => some (numberText n.value)
  | _ => none

def integer? : Part → Option String
  | .leaf (.number n) _ => n.whole.map toString
  | _ => none

def opacity? : Part → Option String
  | .leaf (.number n) _ => some (numberText n.value)
  | .leaf (.percentage n) _ => some (numberText (rescale n.value 1 100))
  | _ => none

def time? : Part → Option String
  | .leaf (.dimension n u) _ => timeText? n.value u
  | _ => none

def colour? : Option String := (Colour.ofPart? p).map Colour.text

def lineStyles : List String :=
  ["none", "hidden", "inset", "groove", "outset", "ridge", "dotted", "dashed", "solid", "double"]

def lineWidth? : Option String :=
  (length? p).orElse fun _ => keyword? ["thin", "medium", "thick"] p

def sizeKeywords : List String := ["auto", "min-content", "max-content", "fit-content", "stretch"]

def weight? : Option String :=
  match (ident? p).map toLower with
  | some "normal" => some "400"
  | some "bold" => some "700"
  | some "bolder" => some "bolder"
  | some "lighter" => some "lighter"
  | some _ => none
  | none => number? p

def wideKeywords : List String := ["initial", "inherit", "unset", "default", "revert", "revert-layer"]

def customName? : Option String :=
  (ident? p).bind fun n => if wideKeywords.contains (toLower n) then none else some n

/-- The name of a set of keyframes; a quoted one loses its quotes unless it is reserved. -/
def keyframesName? : Part → Option String
  | .leaf (.string s) _ =>
    some (if wideKeywords.contains (toLower s) || toLower s == "none" then stringText s
      else identText s)
  | p => (customName? p).map identText

/-! ## Rows of components -/

/-- One to four sides, from the top clockwise; a side that equals its opposite is left out. -/
def sidesText : List String → Option String
  | [a] => some a
  | [a, b] => some (if a == b then a else a ++ " " ++ b)
  | [a, b, c] => sides a b c b
  | [a, b, c, d] => sides a b c d
  | _ => none
where
  sides (a b c d : String) : Option String :=
    some (if a == c && b == d then (if a == b then a else a ++ " " ++ b)
      else if b == d then a ++ " " ++ b ++ " " ++ c
      else a ++ " " ++ b ++ " " ++ c ++ " " ++ d)

def components : List Part := ps.filter fun p => !p.isSkipped

def commaList (one : List Part → Option String) (ps : List Part) : Option String :=
  ((splitParts Part.isComma ps).mapM one).map fun texts => ",".intercalate texts

def single (one : Part → Option String) (ps : List Part) : Option String :=
  match components ps with
  | [p] => one p
  | _ => none

abbrev Slot := String × (Part → Option String)

def fill (slots : List Slot) : List (String × String) → List Part → Option (List (String × String))
  | found, [] => some found
  | found, p :: rest =>
    let taken := slots.findSome? fun s =>
      if (found.lookup s.1).isSome then none else (s.2 p).map fun t => (s.1, t)
    match taken with
    | some f => fill slots (f :: found) rest
    | none => none

def edgeText (styles : List String) (ps : List Part) : Option String := do
  let found ← fill [("width", lineWidth?), ("style", keyword? styles), ("colour", colour?)] []
    (components ps)
  if found.isEmpty then none
  else
    let texts := [("width", "medium"), ("style", "none"), ("colour", "currentColor")].filterMap
      fun (slot, initial) => (found.lookup slot).filter (· != initial)
    return if texts.isEmpty then "none" else " ".intercalate texts

/-! ## Fonts -/

def genericFamilies : List String :=
  ["serif", "sans-serif", "cursive", "fantasy", "monospace", "system-ui", "emoji", "math",
    "fangsong", "ui-serif", "ui-sans-serif", "ui-monospace", "ui-rounded", "initial", "inherit",
    "unset", "default", "revert", "revert-layer"]

def familyText (name : String) : String :=
  let bare := " ".intercalate ((name.splitOn " ").map identText)
  if !name.isEmpty && !genericFamilies.contains (toLower name) &&
      bare.utf8ByteSize < name.utf8ByteSize + 2 then bare
  else stringText name

def family? : Option String :=
  match components ps with
  | [.leaf (.string s) _] => some (familyText s)
  | [.leaf (.ident n) _] =>
    if genericFamilies.contains (toLower n) then some (toLower n) else some (familyText n)
  | [] => none
  | many => (many.mapM ident?).map fun names => familyText (" ".intercalate names)

/-! ## Animations and transitions -/

def easingKeywords : List String :=
  ["linear", "ease", "ease-in", "ease-out", "ease-in-out", "step-start", "step-end"]

def easing? : Part → Option String
  | .group (.function name) body _ _ =>
    if toLower name == "cubic-bezier" then
      (commaList (single number?) body).bind fun args =>
        if (args.splitOn ",").length == 4 then some ("cubic-bezier(" ++ args ++ ")") else none
    else none
  | p => keyword? easingKeywords p

def iteration? : Option String := (number? p).orElse fun _ => keyword? ["infinite"] p

def directions : List String := ["normal", "reverse", "alternate", "alternate-reverse"]

def fillModes : List String := ["none", "forwards", "backwards", "both"]

def playStates : List String := ["running", "paused"]

def isZeroTime (t : String) : Bool := t == "0s" || t == "0ms"

/-- One animation: times, easing, repetition and state before the name, and nothing but the name
when there is no animation. -/
def animation? : Option String := do
  let found ← fill
    [("duration", time?), ("easing", easing?), ("delay", time?), ("iteration", iteration?),
      ("direction", keyword? directions), ("fill", keyword? fillModes),
      ("state", keyword? playStates), ("name", keyframesName?)] [] (components ps)
  if found.isEmpty then none
  else
    let get (slot initial : String) : String := (found.lookup slot).getD initial
    let name := get "name" "none"
    if name == "none" then return "none"
    else
      let duration := get "duration" "0s"
      let delay := get "delay" "0s"
      let changed (slot initial : String) (clash : Bool) : List String :=
        let v := get slot initial
        if v != initial || clash then [v] else []
      let low := toLower name
      let texts :=
        (if !isZeroTime duration || !isZeroTime delay then [duration] else []) ++
        changed "easing" "ease" (easingKeywords.contains low) ++
        (if isZeroTime delay then [] else [delay]) ++
        changed "iteration" "1" (low == "infinite") ++
        changed "direction" "normal" (directions.contains low) ++
        changed "fill" "none" (low != "none" && fillModes.contains low) ++
        changed "state" "running" (playStates.contains low) ++ [name]
      return " ".intercalate texts

def transition? : Option String := do
  let found ← fill [("duration", time?), ("easing", easing?), ("delay", time?),
    ("property", fun p => (customName? p).map identText)] [] (components ps)
  if found.isEmpty then none
  else
    let get (slot initial : String) : String := (found.lookup slot).getD initial
    let duration := get "duration" "0s"
    let delay := get "delay" "0s"
    let easing := get "easing" "ease"
    let texts := [get "property" "all"] ++
      (if !isZeroTime duration || !isZeroTime delay then [duration] else []) ++
      (if easing == "ease" then [] else [easing]) ++ (if isZeroTime delay then [] else [delay])
    return " ".intercalate texts

/-! ## The properties -/

/-- The shortest text of a value, by the property that it is given to; none when the property's
grammar is unknown or the value does not follow it. -/
def knownValue? (name : String) (ps : List Part) : Option String :=
  let oneOf (one : Part → Option String) (keywords : List String) (p : Part) : Option String :=
    (one p).orElse fun _ => keyword? keywords p
  let sides (one : Part → Option String) : Option String :=
    ((components ps).mapM one).bind sidesText
  match name with
  | "top" | "right" | "bottom" | "left" | "margin-top" | "margin-right" | "margin-bottom"
  | "margin-left" | "margin-block-start" | "margin-block-end" | "margin-inline-start"
  | "margin-inline-end" | "inset-block-start" | "inset-block-end" | "inset-inline-start"
  | "inset-inline-end" => single (oneOf lengthOrPercent? ["auto"]) ps
  | "padding-top" | "padding-right" | "padding-bottom" | "padding-left" | "padding-block-start"
  | "padding-block-end" | "padding-inline-start" | "padding-inline-end" | "text-indent" =>
    single lengthOrPercent? ps
  | "width" | "height" | "min-width" | "min-height" | "block-size" | "inline-size"
  | "min-block-size" | "min-inline-size" | "flex-basis" =>
    single (oneOf lengthOrPercent? sizeKeywords) ps
  | "max-width" | "max-height" | "max-block-size" | "max-inline-size" =>
    single (oneOf lengthOrPercent? ("none" :: sizeKeywords)) ps
  | "margin" | "inset" => sides (oneOf lengthOrPercent? ["auto"])
  | "padding" => sides lengthOrPercent?
  | "border-width" => sides lineWidth?
  | "border-style" => sides (keyword? lineStyles)
  | "border-color" => sides colour?
  | "border-top-width" | "border-right-width" | "border-bottom-width" | "border-left-width"
  | "outline-width" => single lineWidth? ps
  | "color" | "background-color" | "border-top-color" | "border-right-color"
  | "border-bottom-color" | "border-left-color" | "outline-color" | "text-decoration-color" =>
    single colour? ps
  | "border" | "border-top" | "border-right" | "border-bottom" | "border-left" =>
    edgeText lineStyles ps
  | "outline" => edgeText ("auto" :: lineStyles) ps
  | "background" =>
    single (fun p =>
      ((keyword? ["none"] p).orElse fun _ => colour? p).map fun t =>
        if t == "none" || t == "#0000" then "0 0" else t) ps
  | "opacity" => single opacity? ps
  | "z-index" => single (oneOf integer? ["auto"]) ps
  | "order" => single integer? ps
  | "flex-grow" | "flex-shrink" => single number? ps
  | "line-height" =>
    single (fun p => (number? p).orElse fun _ => oneOf lengthOrPercent? ["normal"] p) ps
  | "letter-spacing" | "word-spacing" => single (oneOf length? ["normal"]) ps
  | "font-size" =>
    single (oneOf lengthOrPercent? ["xx-small", "x-small", "small", "medium", "large", "x-large",
      "xx-large", "xxx-large", "smaller", "larger"]) ps
  | "font-weight" => single weight? ps
  | "font-family" => commaList family? ps
  | "animation-name" => commaList (single keyframesName?) ps
  | "animation-duration" | "animation-delay" | "transition-duration" | "transition-delay" =>
    commaList (single time?) ps
  | "animation" => commaList animation? ps
  | "transition" => commaList transition? ps
  | _ => none

def vendorMarks : List String := ["-webkit-", "-moz-", "-o-", "-ms-"]

def knownNames : List String :=
  ["animation", "animation-name", "animation-duration", "animation-delay", "transition",
    "transition-duration", "transition-delay"]

def grammarName (name : String) : String :=
  match vendorMarks.findSome? fun v =>
      if v.toList.isPrefixOf name.toList then some (String.ofList (name.toList.drop v.length))
      else none with
  | some bare => if knownNames.contains bare then bare else name
  | none => name

def declarationText (name : String) (ps : List Part) : Except Nat (String × String) :=
  if ['-', '-'].isPrefixOf name.toList then
    (denseText ps).map fun v => (identText name, v)
  else
    match knownValue? (grammarName (toLower name)) ps with
    | some v => .ok (toLower name, v)
    | none => (denseText ps).map fun v => (identText name, v)

end ReactiveMarkup.Style
