import ReactiveMarkup.Diagnostic
import ReactiveMarkup.Text.Blank

/-! # Interpolated text

Text such as `Hello {name}!` as one script expression.
-/

namespace ReactiveMarkup.Interpolation

inductive Part where
  | text (value : String)
  | code (value : String)
  deriving DecidableEq, Repr

/-- How text is protected inside a template literal; `inline` keeps it on one line. -/
inductive Escape where
  | template
  | inline
  deriving DecidableEq, Repr

def backquote : Char := Char.ofNat 0x60

def Escape.chars (e : Escape) : List Char → List Char
  | [] => []
  | c :: rest =>
    if c == '\\' then '\\' :: '\\' :: e.chars rest
    else if c == backquote then '\\' :: backquote :: e.chars rest
    else if c == '$' && rest.head? == some '\x7b' then '\\' :: '$' :: e.chars rest
    else if c == '\n' && e == .inline then '\\' :: 'n' :: e.chars rest
    else c :: e.chars rest

def Escape.apply (e : Escape) (s : String) : String := String.ofList (e.chars s.toList)

inductive Fault where
  | empty (start : Nat)
  | unclosed (start : Nat)
  deriving DecidableEq, Repr

def Fault.diagnose (source : String) : Fault → Diagnostic
  | .empty start =>
    Diagnostic.locate
      { code := .expression, message := "Wrong expression", details := some source } source start
  | .unclosed start =>
    Diagnostic.locate
      { code := .expression, message := "Wrong expression: " ++ source, details := some source }
      source start

def isQuote (c : Char) : Bool := c == '"' || c == '\x27' || c == backquote

/-- What the reader is inside of. Characters are kept in reverse. -/
inductive Mode where
  | text (seen : List Char)
  | code (start : Nat) (quote : Option Char) (seen : List Char)

def textPart (seen : List Char) : List Part :=
  if seen.isEmpty then [] else [.text (String.ofList seen.reverse)]

def split (mode : Mode) (pos : Nat) : List Char → Except Fault (List Part)
  | [] =>
    match mode with
    | .text seen => .ok (textPart seen)
    | .code start _ _ => .error (.unclosed start)
  | c :: rest =>
    let next := pos + c.utf8Size
    match mode with
    | .text seen =>
      if c == '\x7b' then (split (.code pos none []) next rest).map (textPart seen ++ ·)
      else split (.text (c :: seen)) next rest
    | .code start (some q) seen =>
      split (.code start (if c == q then none else some q) (c :: seen)) next rest
    | .code start none seen =>
      if isQuote c then split (.code start (some c) (c :: seen)) next rest
      else if c == '\x7d' then
        let value := Text.trimChars seen.reverse
        if value.isEmpty then .error (.empty start)
        else (split (.text []) next rest).map (.code (String.ofList value) :: ·)
      else split (.code start none (c :: seen)) next rest

def parts (source : String) : Except Fault (List Part) := split (.text []) 0 source.toList

def Part.render (e : Escape) : Part → String
  | .text t => backquote.toString ++ e.apply t ++ backquote.toString
  | .code c => "(" ++ c ++ ")"

/-- The script expression that joins the parts. A lone class binding is forced to a string. -/
def render (e : Escape) (ps : List Part) : String :=
  if ps = [.code "$class"] then "''+$class"
  else String.intercalate "+" (ps.map (Part.render e))

structure Interpolated where
  result : String
  parts : List Part
  deriving DecidableEq, Repr

def parse (source : String) (e : Escape) : Except Diagnostic Interpolated :=
  match parts source with
  | .ok ps => .ok { result := render e ps, parts := ps }
  | .error f => .error (f.diagnose source)

end ReactiveMarkup.Interpolation
