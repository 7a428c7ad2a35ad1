import ReactiveMarkup.Reactive.Binding
import ReactiveMarkup.Reactive.Block
import ReactiveMarkup.Reactive.Component
import ReactiveMarkup.Reactive.Fragment.Tree
import ReactiveMarkup.Session.Scope

/-! # Running steps -/

namespace ReactiveMarkup.Session

open Reactive

variable (h : Host Hook State) (scope : ScopeId)

def silently (a : Code Unit) : Code Shown := do
  a
  return .null

/-- Something is set up in a detector for a node. -/
def setUp (detector : String) (node : NodeRef) (f : DetectorId → NodeId → Code Unit) : Code Shown :=
  silently do
    let d ← detectorOf scope detector
    f d (← nodeOf scope node)

def runDocument :
    DocumentStep Step → Code Shown
  | .create kind into => do
    let n ← extendDocument (·.create kind)
    defineAs scope into (.node n)
    mention n
  | .markup html mode into => do
    let n ← extendDocument fun d =>
      match mode with
      | .page => d.fragment h.page html false
      | .drawing => d.fragment h.page html true
      | .clean => d.cleanFragment h.page html
    defineAs scope into (.node n)
    return .string ((← document).html n)
  | .name node into => silently do
    defineAs scope into (.node (← nodeOf scope node))
  | .append parent node => silently do
    let p ← nodeOf scope parent
    let n ← nodeOf scope node
    changeDocument (·.appendChild p n)
  | .insert parent node before => silently do
    let p ← nodeOf scope parent
    let n ← nodeOf scope node
    let r ← before.mapM (nodeOf scope)
    changeDocument (·.insertBefore p n r)
  | .replace parent node old => silently do
    let p ← nodeOf scope parent
    let n ← nodeOf scope node
    let o ← nodeOf scope old
    changeDocument (·.replaceChild p n o)
  | .remove node => silently do
    let n ← nodeOf scope node
    changeDocument (·.detach n)
  | .removeRange first last => silently do
    let f ← nodeOf scope first
    let l ← nodeOf scope last
    changeDocument (·.removeRange f l)
  | .range first last => do
    let f ← nodeOf scope first
    let l ← nodeOf scope last
    mentionAll ((← document).range f l)
  | .clone node deep into => do
    let n ← nodeOf scope node
    let c ← extendDocument (·.clone n deep)
    defineAs scope into (.node c)
    mention c
  | .relatives node => do
    let n ← nodeOf scope node
    let d ← document
    return .object [("self", ← mention n), ("parent", ← mention? (d.parent? n)),
      ("children", ← mentionAll (d.children n)), ("first", ← mention? (d.firstChild? n)),
      ("last", ← mention? (d.lastChild? n)), ("next", ← mention? (d.nextSibling? n)),
      ("prev", ← mention? (d.previousSibling? n))]
  | .details node => do
    let n ← nodeOf scope node
    let d ← document
    let kind := match d.kind n with
      | .element _ svg => if svg then "svg" else "element"
      | .text _ => "text"
      | .comment _ => "comment"
      | .fragment => "fragment"
    return .object [("kind", .string kind), ("tag", .ofOption .string (d.tagName? n)),
      ("value", .ofOption .string (d.value? n)), ("text", .string (d.text n)),
      ("attributes", .array ((d.content n).attributes.map fun a => .strings [a.1, a.2])),
      ("classes", .strings (d.classes n))]
  | .print node outer => do
    let n ← nodeOf scope node
    let d ← document
    return .string (if outer then d.html n else d.innerHtml n)
  | .setText node text => silently do
    let n ← nodeOf scope node
    let v ← evaluate scope text
    changeDocument (·.setText n v.text)
  | .setAttribute node name value => do
    let n ← nodeOf scope node
    changeDocument fun d =>
      match value with
      | some v => d.setAttribute n name v
      | none => d.removeAttribute n name
    return .ofOption .string ((← document).attribute? n name)
  | .toggleClass node name on => do
    let n ← nodeOf scope node
    on.forM fun b => changeDocument (·.toggleClass n name b)
    let d ← document
    return .array [.bool ((d.classes n).contains name), .ofOption .string (d.attribute? n "class")]
  | .style node name value => do
    let n ← nodeOf scope node
    value.forM fun v => changeDocument (·.setStyle n name v)
    return .ofOption .string ((← document).style? n name)
  | .setProperty node name value => silently do
    let n ← nodeOf scope node
    let v ← evaluate scope value
    changeDocument (·.setProperty n name v)
  | .property node name => do
    let n ← nodeOf scope node
    snapshot ((← document).property n name)
  | .byTag node name => do
    let n ← nodeOf scope node
    mentionAll ((← document).elementsByTag n name)
  | .listen node event body into => silently do
    let n ← nodeOf scope node
    let l ← extendDocument (·.addListener n event (.hook (.steps body scope)))
    defineAs scope into (.listener n l)
  | .unlisten listener node => silently do
    let (home, l) ← listenerOf scope listener
    let n ← match node with
      | some r => nodeOf scope r
      | none => pure home
    changeDocument (·.removeListener n l)
  | .listeners node event => do
    let n ← nodeOf scope node
    return .nat ((← document).listenersFor n event).length
  | .dispatch node event detail => do
    let n ← nodeOf scope node
    let v ← evaluate scope detail
    return .nat (← dispatch h n event v)

def showLocation (l : Location) : Code Shown := do
  return .array [.nat l.detector, .nat l.watcher, ← snapshot l.value]

def runDetector :
    DetectorStep Step → Code Shown
  | .create into => silently do
    defineAs scope into (.detector (← newDetector))
  | .child detector into => silently do
    let d ← detectorOf scope detector
    defineAs scope into (.detector (← newChild d))
  | .removeChild detector child => silently do
    let d ← detectorOf scope detector
    let c ← detectorOf scope child
    removeChild d c
  | .details detector => do
    let d ← find World.detectors (← detectorOf scope detector)
    return .object [("children", .nat d.children.length), ("watchers", .nat d.watchers.length),
      ("destroyed", .bool d.destroyed)]
  | .same a b => do
    let d ← detectorOf scope a
    let e ← detectorOf scope b
    return .bool (d == e)
  | .watch detector get body readOnly comparator initial into => silently do
    let d ← detectorOf scope detector
    let value ← initial.mapM (evaluate scope)
    let w ← watch d
      { source := .hook (.expression get scope), action := .hook (.steps body scope), readOnly
        comparator, value := value.getD .undefined }
    defineAs scope into (.watcher w)
  | .watchedValue watcher => do
    let w ← watcherOf scope watcher
    snapshot (← find World.watchers w).value
  | .prelude detector body => silently do
    addPrelude (← detectorOf scope detector) (.steps body scope)
  | .onDestroy detector body => silently do
    onDestroy (← detectorOf scope detector) (.hook (.steps body scope))
  | .once detector body => silently do
    once (← detectorOf scope detector) (.steps body scope)
  | .destroy detector => silently do
    destroy h (← detectorOf scope detector)
  | .digest detector finish => do
    let d ← detectorOf scope detector
    return .nat (← digest h d (h.run (.steps finish scope) .plain))
  | .report detector finish => do
    let d ← detectorOf scope detector
    let r ← digestReport h d (h.run (.steps finish scope) .plain)
    let last ← match r.last with
      | some l => showLocation l
      | none => pure .null
    return .object [("passes", .nat r.passes), ("converged", .bool r.converged), ("last", last)]

def runTaskStep : TaskStep Step → Code Shown
  | .scheduler detector into => silently do
    let d ← detectorOf scope detector
    defineAs scope into (.scheduler (← newScheduler d))
  | .apply scheduler => silently do
    apply (← schedulerOf scope scheduler)
  | .runNow scheduler => do
    return .nat (← runNow h (← schedulerOf scope scheduler))
  | .details scheduler => do
    let s ← find World.schedulers (← schedulerOf scope scheduler)
    let root ← find World.detectors s.root
    return .object [("running", .bool s.running), ("digests", .nat s.digests),
      ("watchers", .nat root.watchers.length), ("pending", .nat (← get).tasks.length)]
  | .task body => silently do
    addTask (.hook (.steps body scope))
  | .pending => return .nat (← get).tasks.length
  | .idle => return .nat (← runUntilIdle h)

def runBinding : BindingStep Step → Code Shown
  | .text detector node get =>
    setUp scope detector node (bindText · · (.hook (.expression get scope)))
  | .attributeOf detector node name get =>
    setUp scope detector node (bindAttribute · · name (.expression get scope))
  | .styleOf detector node name get =>
    setUp scope detector node (bindStyle · · name (.expression get scope))
  | .classOf detector node name get =>
    setUp scope detector node (bindClass · · name (.expression get scope))
  | .event detector node event body =>
    setUp scope detector node (addEvent · · event (.hook (.steps body scope)))
  | .input detector node name get body =>
    setUp scope detector node (bindInput · · name (.expression get scope) (.steps body scope))
  | .enter node name value => do
    let n ← nodeOf scope node
    let v ← evaluate scope value
    return .nat (← input h n name v)
  | .spread detector node css into => setUp scope detector node fun d n => do
    defineAs scope into (.spread (← newSpread d n css))
  | .spreadFields spread get => silently do
    spreadFields (← spreadOf scope spread) (.expression get scope)
  | .spreadField spread name get => silently do
    spreadField (← spreadOf scope spread) name (.expression get scope)
  | .spreadConstant spread name value => silently do
    spreadConstant (← spreadOf scope spread) name value
  | .spreadRender spread => silently do
    renderSpread (← spreadOf scope spread)

def branchOf (b : BranchScript Step) : Code (Branch Hook) := do
  let template ← extendDocument (·.fragment Fragment.read b.html false)
  return { template, build := .steps b.body scope }

def runBlock : BlockStep Step → Code Shown
  | .choice detector label condition main alt => setUp scope detector label fun d l => do
    match ← main.mapM (branchOf scope) with
    | none => throw .failed
    | some m => ifBlock d l (.expression condition scope) m (← alt.mapM (branchOf scope))
  | .await detector label get pending fulfilled rejected apply =>
    setUp scope detector label fun d l => do
      let parts : AwaitParts Hook :=
        { pending := ← pending.mapM (branchOf scope)
          fulfilled := ← fulfilled.mapM (branchOf scope)
          rejected := ← rejected.mapM (branchOf scope) }
      awaitBlock d l (.expression get scope) parts (.steps apply scope)
  | .markup detector label get => setUp scope detector label (markupBlock · · (.expression get scope))
  | .list detector place get html body key => silently do
    let d ← detectorOf scope detector
    let anchor ← match place with
      | .after label => Anchor.after <$> nodeOf scope label
      | .inside element => Anchor.inside <$> nodeOf scope element
    let template ← extendDocument (·.fragment Fragment.read html false)
    listBlock d anchor (.expression get scope) template (.steps body scope)
      (key.map (.expression · scope))
  | .component detector label makers get options => setUp scope detector label fun d l =>
    componentBlock d l (makers.map fun m => (m.1, .maker m.2 scope)) (.expression get scope)
      (.options options scope)

def optionsOf (o : OptionsScript Step) : Code (ComponentOptions Hook) := do
  let properties ← evaluateFields scope o.properties
  o.listens.forM fun n => addLog (.array [.string n, .bool (o.events.any (·.1 == n))])
  let context ← o.context.mapM fun n => do
    return (← find World.components (← componentOf scope n)).context
  return {
    properties
    events := o.events.map fun e => (e.1, .steps e.2 scope)
    slots := o.slots.map fun s => (s.1, .slot s.2 scope)
    context
    noMount := o.noMount }

def componentEntries (i : ComponentId) : Code (List (String × Entry)) := do
  let c ← find World.components i
  return [("$comp", .component i), ("$cd", .detector c.detector),
    ("$apply", .scheduler c.scheduler)]

def renderIn (i : ComponentId) (host : NodeId) (html : String) (body : List Step) : Code Unit :=
  render h i host html fun fragment => do
    let inner ← newScope scope ((← componentEntries i) ++ [("$frag", .node fragment)])
    h.run (.within body inner) .plain

def runComponent :
    ComponentStep Step → Code Shown
  | .create options into detectorInto schedulerInto => silently do
    let i ← newComponent (← optionsOf scope options)
    let c ← find World.components i
    defineAs scope into (.component i)
    defineAs scope detectorInto (.detector c.detector)
    defineAs scope schedulerInto (.scheduler c.scheduler)
  | .render component host body => silently do
    let i ← componentOf scope component
    renderIn h scope i (← nodeOf scope host) body.html body.body
  | .bindProperty component node name => silently do
    let i ← componentOf scope component
    let n ← nodeOf scope node
    bindText (← find World.components i).detector n (.property i name)
  | .property component name => do
    let i ← componentOf scope component
    snapshot (← componentProperty i name)
  | .setProperty component name value => silently do
    let i ← componentOf scope component
    setComponentProperty i name (← evaluate scope value)
  | .setContext component key value => silently do
    let i ← componentOf scope component
    setContext i key (← evaluate scope value)
  | .contextValue component key => do
    let i ← componentOf scope component
    snapshot (← contextValue i key)
  | .emit component event detail => do
    let i ← componentOf scope component
    let v ← evaluate scope detail
    return .bool (← emit h i event v)
  | .onMount component body => silently do
    onMount (← componentOf scope component) (.steps body scope)
  | .mount component => silently do
    mount h (← componentOf scope component)
  | .flush component => do
    return .nat (← flush h (← componentOf scope component))
  | .destroy component => silently do
    destroyComponent h (← componentOf scope component)
  | .attachSlot component name label fallback into => do
    let i ← componentOf scope component
    let l ← nodeOf scope label
    let branch ← fallback.mapM (branchOf scope)
    let setters ← attachSlot h i name l branch
    defineAs scope into (.setters setters)
    return .strings (setters.map (·.1))
  | .callSetter setters name value => do
    let list ← settersOf scope setters
    let v ← evaluate scope value
    match list.lookup name with
    | some k =>
      h.run k (.value v)
      return .bool true
    | none => return .bool false

def runStep : Step → Code Shown
  | .assign name value => silently do
    assignName scope name (← evaluate scope value)
  | .define name value => silently do
    define scope name (.value (← evaluate scope value))
  | .evaluate value => evaluateShown scope value
  | .log value => silently do
    addLog (← evaluateShown scope value)
  | .fail => throw .failed
  | .when condition body => silently do
    if (← evaluate scope condition).isTruthy then h.run (.within body scope) .plain
  | .settle target value reject => silently do
    let p ← evaluatePromise scope target
    let v ← evaluate scope value
    settle h p (if reject then .rejected v else .fulfilled v)
  | .await target body => silently do
    let p ← evaluatePromise scope target
    await h p (.hook (.steps body scope))
  | .document s => runDocument h scope s
  | .detector s => runDetector h scope s
  | .task s => runTaskStep h scope s
  | .binding s => runBinding h scope s
  | .block s => runBlock scope s
  | .component s => runComponent h scope s

def runSteps (body : List Step) : Code Unit :=
  body.forM fun s => do let _ ← runStep h scope s

end ReactiveMarkup.Session
