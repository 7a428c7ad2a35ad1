import ReactiveMarkup.Diagnostic

/-! # Markup faults

A fault names its cause and the byte range it concerns.
-/

namespace ReactiveMarkup.Markup

inductive Found where
  | endOfFile
  | closeTag (name : String)
  | control (text : String)
  deriving DecidableEq, Repr

def Found.message : Found → String
  | endOfFile => "File ends to early"
  | closeTag name => "Bind error: </" ++ name ++ ">"
  | control text => "Bind error: \x7b" ++ text ++ "\x7d"

inductive Fault where
  | unfinished (construct : String) (start : Nat)
  | strayBrace (start stop : Nat)
  | nestedTag (start stop : Nat)
  | strayClosingSlash (start stop : Nat)
  | openStyle (start : Nat)
  | openComment (start : Nat)
  | splitCharacter
  | unknownControl (header : String) (start stop : Nat)
  | wrongClose (name found : String) (openTag : String) (start : Nat)
  | openElement (openTag : String) (start : Nat)
  | elementInterrupted (found : Found) (openTag : String) (start : Nat)
  | blockInterrupted (found : Found) (header : String) (stop : Nat)
  | strayClose (name : String) (stop : Nat)
  | strayControl (found : Found) (stop : Nat)
  deriving DecidableEq, Repr

namespace Fault

def code : Fault → Code
  | unknownControl .. | elementInterrupted .. | blockInterrupted .. => .binding
  | _ => .markup

def message : Fault → String
  | unfinished construct _ => "Unexpected end of file in " ++ construct
  | strayBrace .. => "Wrong attr"
  | nestedTag .. => "Wrong tag"
  | strayClosingSlash .. => "Tag error"
  | openStyle _ => "<style> is not closed"
  | openComment _ => "Comment is not closed"
  | splitCharacter => ""
  | unknownControl header _ _ => "Error binding: " ++ header
  | wrongClose name found _ _ => "Wrong close-tag: " ++ name ++ " - " ++ found
  | openElement _ _ => Found.endOfFile.message
  | elementInterrupted found _ _ => found.message
  | blockInterrupted found _ _ => found.message
  | strayClose name _ => "Wrong close-tag: - " ++ name
  | strayControl found _ => found.message

/-- The source from `start`, rounded down to a character, to `stop`; none when `stop` lies inside
a character. -/
def excerpt (source : List Char) (start stop : Nat) : Option String :=
  let stop := min stop (Text.byteLength source)
  let start := Text.floorBoundary source (min start stop)
  (Text.slice? source start stop).map String.ofList

def openExcerpt : Nat := 40

def strayExcerpt : Nat := 20

/-- The diagnostic of a fault in `source`; none when a text would be cut inside a character. -/
def diagnose (source : String) (f : Fault) : Option Diagnostic := do
  let cs := source.toList
  let plain : Diagnostic := { code := f.code, message := f.message }
  match f with
  | unfinished _ start =>
    return (plain.withDetails (← excerpt cs start (Text.byteLength cs))).locate source start
  | strayBrace start stop | nestedTag start stop | strayClosingSlash start stop =>
    return plain.withDetails (← excerpt cs start stop)
  | openStyle start | openComment start =>
    return (plain.withDetails (← excerpt cs start (start + openExcerpt))).locate source start
  | splitCharacter => none
  | unknownControl _ start stop =>
    return (plain.withDetails (← excerpt cs start stop)).locate source start
  | wrongClose _ _ openTag start | openElement openTag start
  | elementInterrupted _ openTag start =>
    return (plain.withDetails openTag).locate source start
  | blockInterrupted _ header stop =>
    return (plain.withDetails ("\x7b" ++ header ++ "\x7d")).locate source stop
  | strayClose _ stop | strayControl _ stop =>
    return (plain.withDetails (← excerpt cs (stop - strayExcerpt) stop)).locate source stop

end Fault

end ReactiveMarkup.Markup
