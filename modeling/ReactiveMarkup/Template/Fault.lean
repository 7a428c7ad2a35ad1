import ReactiveMarkup.Diagnostic

/-! # Faults of templates

What can be wrong with the markup of a template. Where a fault has no wording of its own, the
offending attribute is the message.
-/

namespace ReactiveMarkup.Template

inductive Fault where
  | content (text : String)
  | wrongBinding (header : String)
  | wrongValue (content : String)
  | wrongEach (header : String)
  | wrongAwait (header : String)
  | wrongName (name : String)
  | wrongAction (name : String)
  | wrongKey (key : String)
  | wrongTag
  | wrongModifier (name : String)
  | wrongSpread (content : String)
  | missingSpread
  | notSupported (content : String)
  | wrongBindName (text : String)
  | wrongProperty (name : String)
  | wrongProp
  | wrongRef
  | wrongClass (content : String)
  | wrongDynamic
  | doubleSlot (name : String)
  | wrongSlotName (name : String)
  | wrongSlotProp
  | wrongFragment (header : String)
  deriving DecidableEq, Repr

namespace Fault

def message : Fault → String
  | content t => t
  | wrongBinding h => "Wrong binding: " ++ h
  | wrongValue c => "wrong binding: " ++ c
  | wrongEach h => "Wrong #each expression '" ++ h ++ "'"
  | wrongAwait h => "Wrong #await expression '" ++ h ++ "'"
  | wrongName n => "Wrong name '" ++ n ++ "'"
  | wrongAction n => "Wrong name: " ++ n
  | wrongKey k => "Wrong key '" ++ k ++ "'"
  | wrongTag => "Wrong tag"
  | wrongModifier n => "Wrong modificator: " ++ n
  | wrongSpread c => "Wrong spread: " ++ c
  | missingSpread => "Spread without spread object"
  | notSupported c => "Not supported: " ++ c
  | wrongBindName t => "Wrong bind name: " ++ t
  | wrongProperty n => "Wrong property: '" ++ n ++ "'"
  | wrongProp => "Wrong prop"
  | wrongRef => "Wrong ref"
  | wrongClass c => "Wrong class: " ++ c
  | wrongDynamic => "Wrong dynamic component"
  | doubleSlot n => "double slot: " ++ n
  | wrongSlotName n => "Wrong slot name '" ++ n ++ "'"
  | wrongSlotProp => "Wrong prop for slot"
  | wrongFragment h => "Wrong fragment: " ++ h

def code : Fault → Code
  | missingSpread => .generation
  | _ => .binding

def diagnose (f : Fault) : Diagnostic := { code := f.code, message := f.message }

end Fault

end ReactiveMarkup.Template
