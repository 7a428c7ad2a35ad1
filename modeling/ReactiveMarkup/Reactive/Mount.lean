import ReactiveMarkup.Reactive.Detector

/-! # Mounting branches

Copies of templates that appear after a label, one at a time, and go away with their detectors.
-/

namespace ReactiveMarkup.Reactive

variable {κ υ : Type} (h : Host κ υ) (p : PointId)

def newPoint (owner : DetectorId) (label : NodeId) : Act κ υ PointId :=
  modifyGet fun w => (w.points.size, { w with points := w.points.push { owner, label } })

def insertAfter (label fragment : NodeId) : Act κ υ Unit :=
  changeDocument fun d =>
    match d.parent? label with
    | some parent => d.insertBefore parent fragment (d.nextSibling? label)
    | none => d

/-- Mounts a copy of a template. It is bound before it is inserted. -/
def mountWith (template : NodeId) (build : DetectorId → NodeId → Act κ υ Unit) : Act κ υ Unit := do
  let point ← find World.points p
  let detector ← newChild point.owner
  let fragment ← extendDocument (·.clone template true)
  build detector fragment
  let extent := (← document).extent? fragment
  insertAfter point.label fragment
  updatePoint p fun q => { q with mounted := some { detector, extent } }

def mountBranch (b : Branch κ) (v : Option Value) : Act κ υ Unit :=
  mountWith p b.template fun detector fragment => h.run b.build (.built detector fragment v)

def removeExtent (extent : Option (NodeId × NodeId)) : Act κ υ Unit :=
  extent.forM fun e => changeDocument (·.removeRange e.1 e.2)

def unmount : Act κ υ Unit := do
  let point ← find World.points p
  updatePoint p fun q => { q with mounted := none }
  point.mounted.forM fun m => do
    removeChild point.owner m.detector
    destroy h m.detector
    removeExtent m.extent

def chooseBranch (main : Branch κ) (alt : Option (Branch κ)) (v : Value) : Act κ υ Unit := do
  unmount h p
  if v.isTruthy then mountBranch h p main none
  else alt.forM fun b => mountBranch h p b none

def showMarkup (i : MarkupId) (v : Value) : Act κ υ Unit := do
  let b ← find World.markups i
  updateMarkup i fun b => { b with last := none }
  b.last.forM fun last => changeDocument fun d =>
    match d.nextSibling? b.label with
    | some first => d.removeRange first last
    | none => d
  if v.isTruthy then
    let fragment ← extendDocument (·.fragment h.page v.text false)
    let last := (← document).lastChild? fragment
    updateMarkup i fun b => { b with last }
    insertAfter b.label fragment

/-- Mounts the component that a value names, made anew from the options of the moment. -/
def mountComponent (makers : List (String × κ)) (options : κ) (v : Value) : Act κ υ Unit := do
  unmount h p
  (makers.lookup v.text).forM fun maker => do
    let template ← extendDocument (·.create .fragment)
    let passed ← h.options options
    mountWith p template fun detector fragment => do
      let holder ← extendDocument (·.create (.element "div" false))
      let made ← h.construct maker holder passed
      let nodes := (← document).children holder
      nodes.forM fun n => changeDocument (·.appendChild fragment n)
      onDestroy detector (.destroy (← find World.components made).detector)

end ReactiveMarkup.Reactive
