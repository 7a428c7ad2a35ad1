import ReactiveMarkup.Reactive.Mount

/-! # Blocks

Registering the blocks of a template with a detector: nothing is mounted before the first digest.
-/

namespace ReactiveMarkup.Reactive

variable {κ υ : Type} (d : DetectorId) (label : NodeId)

def ifBlock (condition : κ) (main : Branch κ) (alt : Option (Branch κ)) : Act κ υ Unit := do
  let point ← newPoint d label
  let _ ← watch d { source := .truth condition, action := .chooseBranch point main alt }

structure AwaitParts (κ : Type) where
  pending : Option (Branch κ)
  fulfilled : Option (Branch κ)
  rejected : Option (Branch κ)

def awaitBlock (k : κ) (parts : AwaitParts κ) (apply : κ) : Act κ υ Unit := do
  let block : AwaitBlock κ :=
    { point := ← newPoint d label, pending := parts.pending, fulfilled := parts.fulfilled
      rejected := parts.rejected, apply }
  let i ← modifyGet fun w => (w.awaits.size, { w with awaits := w.awaits.push block })
  let _ ← watch d { source := .hook k, action := .awaitValue i }

def markupBlock (k : κ) : Act κ υ Unit := do
  let block ← modifyGet fun w =>
    (w.markups.size, { w with markups := w.markups.push { label } })
  watchReadOnly d (.hook k) (.showMarkup block)

def listBlock (anchor : Anchor) (k : κ) (template : NodeId) (build : κ)
    (keyOf : Option κ) : Act κ υ Unit := do
  let block : ListBlock κ := { owner := d, anchor, template, build, keyOf }
  let i ← modifyGet fun w => (w.lists.size, { w with lists := w.lists.push block })
  let _ ← watch d { source := .hook k, action := .listItems i, comparator := .shallow }

def componentBlock (makers : List (String × κ)) (k options : κ) : Act κ υ Unit := do
  let point ← newPoint d label
  let _ ← watch d { source := .hook k, action := .mountComponent point makers options }

end ReactiveMarkup.Reactive
