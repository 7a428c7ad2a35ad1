import ReactiveMarkup.Reactive.Scheduler

/-! # Components

Instances with properties, a context, events and slots.
-/

namespace ReactiveMarkup.Reactive

variable {κ υ : Type} (h : Host κ υ) (i : ComponentId) (name : String)

def newComponent (o : ComponentOptions κ) : Act κ υ ComponentId := do
  let detector ← newDetector
  let scheduler ← newScheduler detector
  let context ← match o.context with
    | some c => pure c
    | none => modifyGet fun w => (w.contexts.size, { w with contexts := w.contexts.push [] })
  let c : Component κ :=
    { detector, scheduler, context, properties := o.properties, events := o.events
      slots := o.slots, noMount := o.noMount }
  modifyGet fun w => (w.components.size, { w with components := w.components.push c })

def componentProperty : Act κ υ Value :=
  return ((← find World.components i).properties.lookup name).getD .undefined

def setComponentProperty (v : Value) : Act κ υ Unit := do
  updateComponent i fun c => { c with properties := assign name v c.properties }
  apply (← find World.components i).scheduler

def setContext (v : Value) : Act κ υ Unit := do
  updateContext (← find World.components i).context (assign name v)

def contextValue : Act κ υ Value := do
  let entries ← find World.contexts (← find World.components i).context
  return (entries.lookup name).getD .undefined

def emit (event : String) (detail : Value) : Act κ υ Bool := do
  let handlers := (← find World.components i).events.filter (·.1 == event)
  handlers.forM fun e => h.run e.2 (.value detail)
  return !handlers.isEmpty

def onMount (k : κ) : Act κ υ Unit :=
  updateComponent i fun c => { c with mountHooks := c.mountHooks ++ [k] }

def mount : Act κ υ Unit := do
  let hooks := (← find World.components i).mountHooks
  updateComponent i fun c => { c with mountHooks := [] }
  hooks.forM fun k => h.run k .plain

def render (host : NodeId) (html : String) (build : NodeId → Act κ υ Unit) : Act κ υ Unit := do
  let fragment ← extendDocument (·.fragment h.page html false)
  build fragment
  let extent := (← document).extent? fragment
  updateComponent i fun c => { c with extent }
  changeDocument (·.appendChild host fragment)
  let c ← find World.components i
  let _ ← runNow h c.scheduler
  if !c.noMount then mount h i

/-- Renders the slot that the caller passed, else a branch of the component's own. -/
def attachSlot (label : NodeId) (fallback : Option (Branch κ)) : Act κ υ (List (String × κ)) := do
  let c ← find World.components i
  match c.slots.lookup name with
  | some slot =>
    let handle ← h.attach slot label
    onDestroy c.detector (.hook handle.destroy)
    return handle.setters
  | none =>
    fallback.forM fun b => do mountBranch h (← newPoint c.detector label) b none
    return []

def destroyComponent : Act κ υ Unit := do
  destroy h (← find World.components i).detector
  let extent := (← find World.components i).extent
  updateComponent i fun c => { c with extent := none }
  removeExtent extent

def flush : Act κ υ Nat := do
  digest h (← find World.components i).detector (pure ())

end ReactiveMarkup.Reactive
