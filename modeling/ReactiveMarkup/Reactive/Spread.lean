import ReactiveMarkup.Reactive.Detector

/-! # Spread attributes

An element that takes attributes from several sources. Among sources that give the same name the
last one wins. What has changed is written in a task of its own.
-/

namespace ReactiveMarkup.Reactive

variable {κ υ : Type} (i : SpreadId)

def elementProperties : List String := ["value", "checked", "selected", "valueAsNumber"]

def newSpread (detector : DetectorId) (element : NodeId) (css : Option String) : Act κ υ SpreadId :=
  modifyGet fun w =>
    (w.spreads.size, { w with spreads := w.spreads.push { detector, element, css } })

def addSource (fields : List (String × Value)) : Act κ υ Nat := do
  let slot := (← find World.spreads i).sources.length
  updateSpread i fun s => { s with sources := s.sources ++ [fields] }
  return slot

def planRender : Act κ υ Unit := do
  if !(← find World.spreads i).planned then
    updateSpread i fun s => { s with planned := true }
    addTask (.render i)

def setSource (slot : Nat) (f : List (String × Value) → List (String × Value)) : Act κ υ Unit := do
  updateSpread i fun s => { s with sources := s.sources.modify slot f }
  planRender i

def spreadFields (i : SpreadId) (k : κ) : Act κ υ Unit := do
  let slot ← addSource i []
  let _ ← watch (← find World.spreads i).detector
    { source := .hook k, action := .spreadFields i slot, readOnly := true, comparator := .deep 1 }

def spreadField (i : SpreadId) (name : String) (k : κ) : Act κ υ Unit := do
  let slot ← addSource i []
  watchReadOnly (← find World.spreads i).detector (.hook k) (.spreadField i slot name)

def spreadConstant (name value : String) : Act κ υ Unit := do
  let _ ← addSource i [(name, .string value)]

def Spread.fields (s : Spread) : List (String × Value) :=
  s.sources.reverse.flatten.foldl
    (fun fs f => if fs.any (·.1 == f.1) then fs else fs ++ [f]) []

def showField (d : Document (Reaction κ)) (s : Spread) (f : String × Value) :
    Document (Reaction κ) × Spread :=
  let (name, value) := f
  if (s.shown.lookup name).any (·.same value) then (d, s)
  else
    let s := { s with shown := assign name value s.shown }
    if elementProperties.contains name then (d.setProperty s.element name value, s)
    else if value.isNullish then (d.removeAttribute s.element name, s)
    else
      let text := match name == "class", s.css with
        | true, some css => value.text ++ " " ++ css
        | _, _ => value.text
      (d.setAttribute s.element name text, s)

def renderSpread : Act κ υ Unit := do
  let s ← find World.spreads i
  let start := (← document, { s with planned := false })
  let (d, s) := s.fields.foldl (fun p f => showField p.1 p.2 f) start
  changeDocument fun _ => d
  updateSpread i fun _ => s

end ReactiveMarkup.Reactive
