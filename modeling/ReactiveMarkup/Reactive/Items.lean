import ReactiveMarkup.Reactive.Mount

/-! # Lists of items

Live items are matched with a new list by key. What matches is kept and moved, the rest is built or
taken away.
-/

namespace ReactiveMarkup.Reactive

variable {κ υ : Type} (d : Document (Reaction κ)) (h : Host κ υ)

def Item.single? (i : Item κ) : Option NodeId :=
  i.extent.bind fun e => if e.1 = e.2 then some e.1 else none

def Anchor.start? : Anchor → Option NodeId
  | .after label => some label
  | .inside _ => none

def Anchor.parent? (a : Anchor) (d : Document (Reaction κ)) : Option NodeId :=
  match a with
  | .after label => d.parent? label
  | .inside element => some element

def keyAt (keyOf : Option κ) (item : Value) (index : Nat) : Act κ υ Key :=
  match keyOf with
  | some k => return (← h.key k item index).key
  | none => return item.key

def dropItem (owner : DetectorId) (i : Item κ) : Act κ υ Unit := do
  removeChild owner i.detector
  destroy h i.detector
  removeExtent i.extent

/-- Of the live items, keeps the first of each wanted key and drops all others. -/
def retire (h : Host κ υ) (owner : DetectorId) (wanted : List Key) :
    List (Key × Item κ) → List (Key × Item κ) → Act κ υ (List (Key × Item κ))
  | kept, [] => return kept
  | kept, e :: rest =>
    if wanted.contains e.1 && !kept.any (·.1 == e.1) then
      retire h owner wanted (kept ++ [e]) rest
    else do
      dropItem h owner e.2
      retire h owner wanted kept rest

def nextPlace (parent : NodeId) : Option NodeId → Option NodeId
  | some p => d.nextSibling? p
  | none => d.firstChild? parent

/-- The node after `target` starts the item of the next key, which is a live one. -/
def nextIsKept (target : Option NodeId) (nextKey : Option Key)
    (reusable : List (Key × Item κ)) : Bool :=
  let next := nextKey.bind fun k => reusable.find? (·.1 == k)
  let start := next.bind fun e => e.2.extent.map (·.1)
  let after := target.bind d.nextSibling?
  next.isSome && after.isSome && after == start

/-- Brings the nodes of a kept item to their place. A single node takes the place of another kept
single node when that saves a move. -/
def moveItem (parent : NodeId) (target : Option NodeId)
    (swaps : Bool) (extent : NodeId × NodeId) : Document (Reaction κ) :=
  match swaps, target with
  | true, some t => d.replaceChild parent extent.1 t
  | _, _ => (d.range extent.1 extent.2).foldl (fun d n => d.insertBefore parent n target) d

/-- What has been placed so far: the last node, the items that may still be kept, and the live
items. -/
structure Placing (κ : Type) where
  previous : Option NodeId
  reusable : List (Key × Item κ)
  placed : List (Key × Item κ) := []

def keepItem (parent : NodeId) (target : Option NodeId) (singles : List NodeId)
    (nextKey : Option Key) (reusable : List (Key × Item κ)) (index : Nat) (value : Value)
    (item : Item κ) : Act κ υ Unit := do
  item.extent.forM fun extent => do
    let d ← document
    if target != some extent.1 then
      let swaps := item.single?.isSome && target.any singles.contains &&
        nextIsKept d target nextKey reusable
      changeDocument fun d => moveItem d parent target swaps extent
  h.run item.rebind (.rebound index value)

def buildItem (h : Host κ υ) (b : ListBlock κ) (parent : NodeId) (target : Option NodeId)
    (index : Nat) (value : Value) : Act κ υ (Item κ) := do
  let detector ← newChild b.owner
  let fragment ← extendDocument (·.clone b.template true)
  let rebind ← h.buildItem b.build detector fragment index value
  let extent := (← document).extent? fragment
  changeDocument (·.insertBefore parent fragment target)
  return { detector, extent, rebind }

def placeItem (b : ListBlock κ) (parent : NodeId) (singles : List NodeId)
    (keys : List Key) (s : Placing κ) (entry : (Value × Key) × Nat) : Act κ υ (Placing κ) := do
  let ((value, key), index) := entry
  let target := nextPlace (← document) parent s.previous
  let kept := s.reusable.find? (·.1 == key)
  let reusable := s.reusable.filter (·.1 != key)
  let item ← match kept with
    | some e =>
      keepItem h parent target singles keys[index + 1]? reusable index value e.2
      pure e.2
    | none => buildItem h b parent target index value
  return {
    previous := (item.extent.map (·.2)).or s.previous
    reusable
    placed := s.placed ++ [(key, item)] }

def listItems (i : ListId) (v : Value) : Act κ υ Unit := do
  let b ← find World.lists i
  match b.anchor.parent? (← document) with
  | none => pure ()
  | some parent =>
    let values := v.items?.getD []
    let keys ← values.zipIdx.mapM fun p => keyAt h b.keyOf p.1 p.2
    let old := (← find World.lists i).live
    updateList i fun b => { b with live := [] }
    let reusable ← retire h b.owner keys [] old
    let singles := reusable.filterMap (·.2.single?)
    let start : Placing κ := { previous := b.anchor.start?, reusable }
    let last ← (values.zip keys).zipIdx.foldlM (placeItem h b parent singles keys) start
    last.reusable.forM fun e => dropItem h b.owner e.2
    updateList i fun b => { b with live := last.placed }

end ReactiveMarkup.Reactive
