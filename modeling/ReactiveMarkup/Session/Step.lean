import ReactiveMarkup.Reactive.Compare
import ReactiveMarkup.Reactive.Document

/-! # Scripted user code

Steps are kept in families; a family takes the type of steps that its callbacks are made of.
-/

namespace ReactiveMarkup.Session

open Number (Binary)
open Reactive (Comparator NodeKind)

inductive Expression where
  | undefined
  | null
  | bool (b : Bool)
  | number (n : Binary)
  | string (s : String)
  | array (items : List Expression)
  | object (fields : List (String × Expression))
  | promise
  | resolved (value : Expression)
  | variable (name : String)
  | get (of : Expression) (key : String)
  | text (parts : List Expression)
  | add (a b : Expression)
  | less (a b : Expression)
  | not (of : Expression)
  | choose (condition yes no : Expression)
  | property (component name : String)
  | fail
  deriving Inhabited

structure NodeRef where
  name : String
  path : List Nat := []
  deriving DecidableEq, Repr

structure BranchScript (σ : Type) where
  html : String
  body : List σ

structure SlotScript (σ : Type) where
  html : String
  body : List σ
  destroy : List σ
  setters : List (String × List σ)

structure MakerScript (σ : Type) where
  html : String
  body : List σ
  onMount : Option (List σ)

structure OptionsScript (σ : Type) where
  properties : List (String × Expression)
  events : List (String × List σ)
  listens : List String
  slots : List (String × SlotScript σ)
  context : Option String
  noMount : Bool

inductive MarkupMode where
  | page
  | drawing
  | clean
  deriving DecidableEq, Repr

inductive DocumentStep (σ : Type) where
  | create (kind : NodeKind) (into : Option String)
  | markup (html : String) (mode : MarkupMode) (into : Option String)
  | name (node : NodeRef) (into : Option String)
  | append (parent node : NodeRef)
  | insert (parent node : NodeRef) (before : Option NodeRef)
  | replace (parent node old : NodeRef)
  | remove (node : NodeRef)
  | removeRange (first last : NodeRef)
  | range (first last : NodeRef)
  | clone (node : NodeRef) (deep : Bool) (into : Option String)
  | relatives (node : NodeRef)
  | details (node : NodeRef)
  | print (node : NodeRef) (outer : Bool)
  | setText (node : NodeRef) (text : Expression)
  | setAttribute (node : NodeRef) (name : String) (value : Option String)
  | toggleClass (node : NodeRef) (name : String) (on : Option Bool)
  | style (node : NodeRef) (name : String) (value : Option (Option String))
  | setProperty (node : NodeRef) (name : String) (value : Expression)
  | property (node : NodeRef) (name : String)
  | byTag (node : NodeRef) (name : String)
  | listen (node : NodeRef) (event : String) (body : List σ) (into : Option String)
  | unlisten (listener : String) (node : Option NodeRef)
  | listeners (node : NodeRef) (event : String)
  | dispatch (node : NodeRef) (event : String) (detail : Expression)

inductive DetectorStep (σ : Type) where
  | create (into : Option String)
  | child (detector : String) (into : Option String)
  | removeChild (detector child : String)
  | details (detector : String)
  | same (a b : String)
  | watch (detector : String) (get : Expression) (body : List σ) (readOnly : Bool)
      (comparator : Comparator) (initial : Option Expression) (into : Option String)
  | watchedValue (watcher : String)
  | prelude (detector : String) (body : List σ)
  | onDestroy (detector : String) (body : List σ)
  | once (detector : String) (body : List σ)
  | destroy (detector : String)
  | digest (detector : String) (finish : List σ)
  | report (detector : String) (finish : List σ)

inductive TaskStep (σ : Type) where
  | scheduler (detector : String) (into : Option String)
  | apply (scheduler : String)
  | runNow (scheduler : String)
  | details (scheduler : String)
  | task (body : List σ)
  | pending
  | idle

inductive BindingStep (σ : Type) where
  | text (detector : String) (node : NodeRef) (get : Expression)
  | attributeOf (detector : String) (node : NodeRef) (name : String) (get : Expression)
  | styleOf (detector : String) (node : NodeRef) (name : String) (get : Expression)
  | classOf (detector : String) (node : NodeRef) (name : String) (get : Expression)
  | event (detector : String) (node : NodeRef) (event : String) (body : List σ)
  | input (detector : String) (node : NodeRef) (name : String) (get : Expression) (body : List σ)
  | enter (node : NodeRef) (name : String) (value : Expression)
  | spread (detector : String) (node : NodeRef) (css : Option String) (into : Option String)
  | spreadFields (spread : String) (get : Expression)
  | spreadField (spread : String) (name : String) (get : Expression)
  | spreadConstant (spread : String) (name value : String)
  | spreadRender (spread : String)

inductive ListPlace where
  | after (label : NodeRef)
  | inside (element : NodeRef)
  deriving DecidableEq, Repr

inductive BlockStep (σ : Type) where
  | choice (detector : String) (label : NodeRef) (condition : Expression)
      (main alt : Option (BranchScript σ))
  | await (detector : String) (label : NodeRef) (get : Expression)
      (pending fulfilled rejected : Option (BranchScript σ)) (apply : List σ)
  | markup (detector : String) (label : NodeRef) (get : Expression)
  | list (detector : String) (place : ListPlace) (get : Expression) (html : String)
      (body : List σ) (key : Option Expression)
  | component (detector : String) (label : NodeRef) (makers : List (String × MakerScript σ))
      (get : Expression) (options : OptionsScript σ)

inductive ComponentStep (σ : Type) where
  | create (options : OptionsScript σ) (into detectorInto schedulerInto : Option String)
  | render (component : String) (host : NodeRef) (body : BranchScript σ)
  | bindProperty (component : String) (node : NodeRef) (name : String)
  | property (component name : String)
  | setProperty (component name : String) (value : Expression)
  | setContext (component key : String) (value : Expression)
  | contextValue (component key : String)
  | emit (component event : String) (detail : Expression)
  | onMount (component : String) (body : List σ)
  | mount (component : String)
  | flush (component : String)
  | destroy (component : String)
  | attachSlot (component name : String) (label : NodeRef) (fallback : Option (BranchScript σ))
      (into : Option String)
  | callSetter (setters name : String) (value : Expression)

inductive Step where
  | assign (name : String) (value : Expression)
  | define (name : String) (value : Expression)
  | evaluate (value : Expression)
  | log (value : Expression)
  | fail
  | when (condition : Expression) (body : List Step)
  | settle (target value : Expression) (reject : Bool)
  | await (target : Expression) (body : List Step)
  | document (s : DocumentStep Step)
  | detector (s : DetectorStep Step)
  | task (s : TaskStep Step)
  | binding (s : BindingStep Step)
  | block (s : BlockStep Step)
  | component (s : ComponentStep Step)
  deriving Inhabited

end ReactiveMarkup.Session
