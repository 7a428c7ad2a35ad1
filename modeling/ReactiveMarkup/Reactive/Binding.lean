import ReactiveMarkup.Reactive.Detector

/-! # Bindings

Watchers that keep a part of the document in line with a value, and listeners.
-/

namespace ReactiveMarkup.Reactive

variable {κ υ : Type} (h : Host κ υ) (d : DetectorId) (node : NodeId)

def bindText (source : Source κ) : Act κ υ Unit :=
  watchReadOnly d source (.showText node)

def bindAttribute (name : String) (k : κ) : Act κ υ Unit :=
  watchReadOnly d (.hook k) (.showAttribute node name)

def bindClass (classes : String) (k : κ) : Act κ υ Unit :=
  watchReadOnly d (.truth k) (.showClasses node (Text.words classes))

def bindStyle (property : String) (k : κ) : Act κ υ Unit :=
  watchReadOnly d (.hook k) (.showStyle node property)

def addEvent (event : String) (r : Reaction κ) : Act κ υ Unit := do
  let l ← extendDocument (·.addListener node event r)
  onDestroy d (.removeListener node l)

def inputEvent (property : String) : String := if property == "checked" then "change" else "input"

def bindInput (property : String) (get set : κ) : Act κ υ Unit := do
  addEvent d node (inputEvent property) (.input property set)
  watchReadOnly d (.hook get) (.showProperty node property)

def react (event : String) (target : NodeId) (detail : Value) :
    Reaction κ → Act κ υ Unit
  | .hook k => h.run k (.event event target detail)
  | .input property k => do h.run k (.value ((← document).property target property))

def dispatch (target : NodeId) (event : String) (detail : Value) : Act κ υ Nat := do
  let listeners := (← document).listenersFor target event
  listeners.forM (react h event target detail)
  return listeners.length

def input (property : String) (v : Value) : Act κ υ Nat := do
  changeDocument (·.setProperty node property v)
  dispatch h node (inputEvent property) v

end ReactiveMarkup.Reactive
