import ReactiveMarkup.Script.Patch
import ReactiveMarkup.Script.Tree

/-! # Instrumentation

Patches that make a script announce its changes. Callbacks of iterations and of destruction are
left alone, and so is a body that carries the marker.
-/

namespace ReactiveMarkup.Script

open Text (Span)

/-- The name that exempts the function body in which it stands as a statement. -/
def exemptMarker : String := "$$_noCheck"

def applyCall : String := "$$apply();"

inductive Frame where
  | statements (current : Option (Span × Option Span))
  | returned (span : Span)

structure Tracker where
  skipDestroy : Bool
  loopCallbacks : List Nat := []
  destroyCallbacks : List Nat := []
  frames : List Frame := []
  applied : List Nat := []
  patches : List Patch := []
  seq : Nat := 0

abbrev Walk := StateM Tracker

namespace Walk

def push (pos : Nat) (change : Change) : Walk Unit :=
  modify fun t =>
    { t with seq := t.seq + 1, patches := { pos, seq := t.seq + 1, change } :: t.patches }

def wrapApply (span : Span) : Walk Unit := do
  push span.start (.opening "$$apply(")
  push span.stop (.closing ")")

def framed (f : Frame) (act : Walk Unit) : Walk Unit := do
  modify fun t => { t with frames := f :: t.frames }
  act
  modify fun t => { t with frames := t.frames.drop 1 }

def setCurrent (current : Span × Option Span) : Walk Unit :=
  modify fun t =>
    match t.frames with
    | .statements _ :: rest => { t with frames := .statements (some current) :: rest }
    | _ => t

def firstAt (pos : Nat) : Walk Bool := do
  let t ← get
  if t.applied.contains pos then return false
  else
    set { t with applied := pos :: t.applied }
    return true

end Walk

def isExemptMarker : Tree → Bool
  | .node .expression _ [e] => e.name? == some exemptMarker
  | _ => false

def returnedSpan : Tree → Option Span
  | .node .returns _ [e] => if e.isAbsent then none else some e.span
  | _ => none

def callbackStart (t : Tree) : Option Nat :=
  match t.form with
  | .function .. | .arrow .. => some t.start
  | _ => none

def iterationNames : List String := ["forEach", "map", "filter"]

open Walk

def walkStatements (stmts : List (Tree × Walk Unit)) : Walk Unit :=
  framed (.statements none) <| stmts.forM fun (t, act) => do
    setCurrent (t.span, returnedSpan t)
    act

def instrumentBody (body : Tree) (inLoop : Bool) : Walk Bool := do
  match body with
  | .node (.body _) span stmts =>
    if stmts.isEmpty then return true
    else
      match stmts.find? isExemptMarker with
      | some marker =>
        push marker.start (.cut marker.stop)
        return false
      | none =>
        unless inLoop do push (span.start + 1) (.opening applyCall)
        return true
  | _ => return true

def noteCallbacks (callee : Tree) (args : List Tree) : Walk Unit :=
  let starts := args.filterMap callbackStart
  match callee with
  | .node (.dot _) _ [_, name] =>
    if name.name?.any iterationNames.contains then
      modify fun t => { t with loopCallbacks := starts ++ t.loopCallbacks }
    else pure ()
  | t =>
    if t.name? == some "$onDestroy" then
      modify fun t => { t with destroyCallbacks := starts ++ t.destroyCallbacks }
    else pure ()

def noteAwait : Walk Unit := do
  match (← get).frames with
  | .statements (some (span, returned)) :: _ =>
    if ← firstAt span.start then
      match returned with
      | some value => wrapApply value
      | none => push span.stop (.closing " $$apply();")
  | .returned span :: _ => if ← firstAt span.start then wrapApply span
  | _ => pure ()

def walkForm (form : Form) (span : Span) (parts : List (Tree × Walk Unit)) : Walk Unit := do
  let t ← get
  let exempt := t.skipDestroy && t.destroyCallbacks.contains span.start
  let inLoop := t.loopCallbacks.contains span.start
  match form, parts with
  | .call _, callee :: args =>
    noteCallbacks callee.1 (args.map (·.1))
    parts.forM (·.2)
  | .function .., [name, ps, body] =>
    unless exempt do
      if ← instrumentBody body.1 inLoop then
        name.2
        ps.2
        body.2
  | .arrow _ true, [ps, body] =>
    unless exempt do
      ps.2
      if inLoop then body.2
      else
        push body.1.start (.opening "\x7b$$apply(); return ")
        push body.1.stop (.closing ";\x7d")
        framed (.returned body.1.span) body.2
  | .arrow _ false, [ps, body] =>
    unless exempt do
      if ← instrumentBody body.1 inLoop then
        ps.2
        body.2
  | .body _, stmts => walkStatements stmts
  | .block, stmts => walkStatements stmts
  | .await, [e] =>
    noteAwait
    e.2
  | _, parts => parts.forM (·.2)

def instrument (skipDestroy : Bool) (stmts : List Tree) : List Patch :=
  let ((), t) := ((Tree.buildAll walkForm stmts).forM (·.2)).run { skipDestroy }
  t.patches.reverse

end ReactiveMarkup.Script
