import ReactiveMarkup.Diagnostic
import ReactiveMarkup.Script.Module

/-! # Expressions in markup -/

namespace ReactiveMarkup.Expression

def isPathChar (c : Char) : Bool := Text.isWord c || c == '$'

def isSimpleName (s : String) : Bool :=
  match s.toList with
  | [] => false
  | c :: rest =>
    isPathChar c && rest.all (fun d => isPathChar d || d == '.') && (c :: rest).getLast? != some '.'

inductive Fault where
  | empty
  | unwrapped (text : String)
  deriving DecidableEq, Repr

def Fault.diagnose : Fault → Diagnostic
  | .empty => { code := .binding, message := "Empty expression" }
  | .unwrapped text => { code := .binding, message := "Wrong expression: " ++ text }

def unwrapChars (cs : List Char) : Option (List Char) :=
  match cs with
  | '\x7b' :: rest => if rest.getLast? = some '\x7d' then some rest.dropLast else none
  | _ => none

def unwrap (s : String) : Except Fault String :=
  if s.isEmpty then .error .empty
  else
    match unwrapChars s.toList with
    | some inner => .ok (String.ofList inner)
    | none => .error (.unwrapped s)

def rootName? (s : String) : Option String :=
  match s.toList with
  | c :: rest =>
    if c.isAlpha || c == '_' || c == '$' then
      some (String.ofList (c :: rest.takeWhile isPathChar))
    else none
  | [] => none

inductive Kind where
  | identifier
  | function
  deriving DecidableEq, Repr

def kind? (code : String) : Option Kind :=
  if isSimpleName code then some .identifier
  else
    match (Script.parseExpression code).map Script.Tree.unparen with
    | none => none
    | some e =>
      if e.name?.isSome || e.isNamedMember then some .identifier
      else
        match e.form with
        | .arrow .. => some .function
        | _ => none

end ReactiveMarkup.Expression
