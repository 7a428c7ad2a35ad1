import ReactiveMarkup.Compile.Context
import ReactiveMarkup.Compile.Phase

/-! # Edits

Each applies at one phase and changes the compilation in progress or stops it.
-/

namespace ReactiveMarkup.Compile

open Markup (Attribute Node RawBlock)

inductive Change where
  | stop (message : String) (details : Option String)
  | appendResult (text : String)
  | setSource (text : String)
  | setScript (text : String)
  | setStyle (text : String)
  | appendHeader (text : String)
  | appendBody (text : String)
  | rename (name : String)
  | setCompact (on : Bool)
  | addAttribute (name : String) (value : Option String)
  | insertText (value : String)
  | dropNode
  | dropScripts
  | dropScript
  | dropScope
  | dropResult
  deriving DecidableEq, Repr

inductive Edit where
  | observe
  | at (phase : Phase) (change : Change)
  deriving DecidableEq, Repr

def mapFirst {α : Type} (f : α → α) : List α → List α
  | [] => []
  | a :: rest => f a :: rest

def addToElement (a : Attribute) : Node → Node
  | .element e body s => .element { e with attributes := e.attributes ++ [a] } body s
  | n => n

def Context.withBody (c : Context) (f : List Node → List Node) : Context :=
  { c with root := { c.root with body := f c.root.body } }

def Change.apply (phase : Phase) (c : Context) : Change → Except Diagnostic Context
  | stop message details =>
    .error { code := .plugin, message := message ++ " (" ++ phase.name ++ ")", details }
  | appendResult t => .ok { c with result := c.result.map (· ++ t) }
  | setSource t => .ok { c with source := t }
  | setScript t => .ok { c with scripts := mapFirst (fun b => { b with content := t }) c.scripts }
  | setStyle t => .ok { c with styles := mapFirst (fun b => { b with content := t }) c.styles }
  | appendHeader t => .ok { c with parts := { c.parts with header := c.parts.header ++ t } }
  | appendBody t => .ok { c with parts := { c.parts with body := c.parts.body ++ t } }
  | rename n => .ok { c with options := { c.options with name := n } }
  | setCompact on => .ok { c with options := { c.options with compact := on } }
  | addAttribute n v => .ok (c.withBody (mapFirst (addToElement (.plain n v))))
  | insertText v => .ok (c.withBody (.text v ⟨0, 0⟩ :: ·))
  | dropNode => .ok (c.withBody (·.drop 1))
  | dropScripts => .ok { c with scripts := [] }
  | dropScript => .ok { c with script := none }
  | dropScope => .ok { c with scope := none }
  | dropResult => .ok { c with result := none }

end ReactiveMarkup.Compile
