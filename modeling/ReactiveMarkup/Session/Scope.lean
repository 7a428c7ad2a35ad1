import ReactiveMarkup.Reactive.Promise
import ReactiveMarkup.Reactive.Snapshot
import ReactiveMarkup.Session.Step

/-! # Scopes -/

namespace ReactiveMarkup.Session

open Reactive

abbrev ScopeId := Nat

/-- A piece of scripted code with the scope that it was registered in. -/
inductive Hook where
  | expression (e : Expression) (scope : ScopeId)
  | steps (body : List Step) (scope : ScopeId)
  | within (body : List Step) (scope : ScopeId)
  | rebind (scope : ScopeId)
  | slot (s : SlotScript Step) (scope : ScopeId)
  | maker (m : MakerScript Step) (scope : ScopeId)
  | options (o : OptionsScript Step) (scope : ScopeId)

inductive Entry where
  | value (v : Value)
  | node (n : NodeId)
  | detector (d : DetectorId)
  | watcher (w : WatcherId)
  | listener (node : NodeId) (l : ListenerId)
  | scheduler (s : SchedulerId)
  | component (c : ComponentId)
  | spread (s : SpreadId)
  | setters (list : List (String × Hook))

structure Scope where
  parent : Option ScopeId := none
  entries : List (String × Entry) := []

/-- Scopes, of which the first is the outermost; nodes in the order of their first mention in an
answer; and the log. -/
structure State where
  scopes : Array Scope := #[{}]
  mentioned : List NodeId := []
  log : List Shown := []

abbrev Code := Act Hook State

def outermost : ScopeId := 0

def changeState (f : State → State) : Code Unit := modify fun w => { w with user := f w.user }

def newScope (parent : ScopeId) (entries : List (String × Entry)) : Code ScopeId := do
  let i := (← get).user.scopes.size
  changeState fun s => { s with scopes := s.scopes.push { parent := some parent, entries } }
  return i

variable (scope : ScopeId)

def define (name : String) (e : Entry) : Code Unit :=
  changeState fun s =>
    { s with scopes := s.scopes.modify scope fun c =>
        { c with entries := Reactive.assign name e c.entries } }

def defineAs (name : Option String) (e : Entry) : Code Unit :=
  name.forM fun n => define scope n e

def scopeOf? (scopes : Array Scope) (name : String) : Nat → ScopeId → Option (ScopeId × Entry)
  | 0, _ => none
  | n + 1, i => do
    let s ← scopes[i]?
    match s.entries.lookup name with
    | some e => return (i, e)
    | none => scopeOf? scopes name n (← s.parent)

def findName? (name : String) : Code (Option (ScopeId × Entry)) := do
  let scopes := (← get).user.scopes
  return scopeOf? scopes name scopes.size scope

def assignName (name : String) (v : Value) : Code Unit := do
  let target := ((← findName? scope name).map (·.1)).getD outermost
  define target name (.value v)

/-! ## References -/

def resolve {α : Type} (kind : Entry → Option α) (scope : ScopeId) (name : String) : Code α := do
  match (← findName? scope name).bind fun e => kind e.2 with
  | some a => return a
  | none => throw .failed

def detectorOf := resolve fun
  | .detector d => some d
  | _ => none

def watcherOf := resolve fun
  | .watcher w => some w
  | _ => none

def listenerOf := resolve fun
  | .listener n l => some (n, l)
  | _ => none

def schedulerOf := resolve fun
  | .scheduler s => some s
  | _ => none

def componentOf := resolve fun
  | .component c => some c
  | _ => none

def spreadOf := resolve fun
  | .spread s => some s
  | _ => none

def settersOf := resolve fun
  | .setters list => some list
  | _ => none

def descend? {ρ : Type} (d : Document ρ) : List Nat → NodeId → Option NodeId
  | [], i => some i
  | k :: rest, i => (d.children i)[k]?.bind (descend? d rest)

def nodeOf (r : NodeRef) : Code NodeId := do
  let d ← document
  let found : Entry → Option NodeId
    | .node n => descend? d r.path n
    | _ => none
  resolve found scope r.name

def mention (n : NodeId) : Code Shown := do
  let known := (← get).user.mentioned
  match known.idxOf? n with
  | some i => return .nat i
  | none =>
    changeState fun s => { s with mentioned := s.mentioned ++ [n] }
    return .nat known.length

def mention? : Option NodeId → Code Shown
  | some n => mention n
  | none => return .null

def mentionAll (ns : List NodeId) : Code Shown := return .array (← ns.mapM mention)

def addLog (v : Shown) : Code Unit := changeState fun s => { s with log := s.log ++ [v] }

/-! ## Expressions -/

def numberOf (v : Value) : Number.Binary := v.number?.getD .nan

mutual
/-- The value of an expression. Arrays, objects and promises are new ones each time. -/
def evaluate (scope : ScopeId) : Expression → Code Value
  | .undefined => return .undefined
  | .null => return .null
  | .bool b => return .bool b
  | .number n => return .number n
  | .string s => return .string s
  | .array items => do
    let vs ← evaluateAll scope items
    return .array (← newIdentity) vs
  | .object fields => do
    let fs ← evaluateFields scope fields
    return .object (← newIdentity) fs
  | .promise => return .promise (← newPromise)
  | .resolved e => do
    let v ← evaluate scope e
    let p ← newPromise
    updatePromise p fun q => { q with settled := some (.fulfilled v) }
    return .promise p
  | .variable name => do
    match ← findName? scope name with
    | some (_, .value v) => return v
    | _ => return .undefined
  | .get e key => return (← evaluate scope e).get key
  | .text parts => return .string (String.join ((← evaluateAll scope parts).map Value.text))
  | .add a b => do
    let x ← evaluate scope a
    let y ← evaluate scope b
    return .number (Number.Binary.add Number.double (numberOf x) (numberOf y))
  | .less a b => do
    let x ← evaluate scope a
    let y ← evaluate scope b
    return .bool (Number.Binary.lt (numberOf x) (numberOf y))
  | .not e => return .bool !(← evaluate scope e).isTruthy
  | .choose c yes no => do
    if (← evaluate scope c).isTruthy then evaluate scope yes else evaluate scope no
  | .property c name => do
    let i ← componentOf scope c
    return ((← find World.components i).properties.lookup name).getD .undefined
  | .fail => throw .failed

def evaluateAll (scope : ScopeId) : List Expression → Code (List Value)
  | [] => return []
  | e :: rest => do
    let v ← evaluate scope e
    return v :: (← evaluateAll scope rest)

def evaluateFields (scope : ScopeId) :
    List (String × Expression) → Code (List (String × Value))
  | [] => return []
  | (name, e) :: rest => do
    let v ← evaluate scope e
    return (name, v) :: (← evaluateFields scope rest)
end

def evaluatePromise (e : Expression) : Code PromiseId := do
  match ← evaluate scope e with
  | .promise p => return p
  | _ => throw .failed

def evaluateShown (e : Expression) : Code Shown := do
  snapshot (← evaluate scope e)

end ReactiveMarkup.Session
