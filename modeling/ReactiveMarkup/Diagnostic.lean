import ReactiveMarkup.Text.Offset

/-! # Diagnostics

Line and column count from one; zero means that no position is known.
-/

namespace ReactiveMarkup

inductive Code where
  | markup
  | binding
  | expression
  | script
  | style
  | generation
  | plugin
  | other (text : String)
  deriving DecidableEq, Repr

namespace Code

def text : Code → String
  | markup => "E-PARSE"
  | binding => "E-BIND"
  | expression => "E-EXPR"
  | script => "E-SCRIPT"
  | style => "E-CSS"
  | generation => "E-GEN"
  | plugin => "E-PLUGIN"
  | other t => t

def kind : Code → String
  | markup => "markup parse error"
  | binding => "binding error"
  | expression => "expression error"
  | script => "script error"
  | style => "style error"
  | generation => "generation error"
  | plugin => "plugin error"
  | other _ => "compiler error"

def ofText (t : String) : Code :=
  [markup, binding, expression, script, style, generation, plugin].find? (·.text == t)
    |>.getD (other t)

end Code

structure Diagnostic where
  code : Code
  message : String
  details : Option String := none
  line : Nat := 0
  column : Nat := 0
  deriving DecidableEq, Repr

namespace Diagnostic

variable (d : Diagnostic)

def withDetails (text : String) : Diagnostic := { d with details := some text }

def orDetails (text : String) : Diagnostic :=
  { d with details := some (d.details.getD text) }

def positionAfter (before : List Char) : Nat × Nat :=
  (before.count '\n' + 1, (before.reverse.takeWhile (· != '\n')).length + 1)

/-- Points the diagnostic at a byte offset, rounded down to a character of `source`. -/
def locate (source : String) (offset : Nat) : Diagnostic :=
  let at_ := positionAfter (Text.takeBytes source.toList offset)
  { d with line := at_.1, column := at_.2 }

/-- Moves a position inside the excerpt onto the whole source in which the excerpt stands.
A located markup error already refers to the whole source. -/
def anchor (source : String) : Diagnostic :=
  if d.code = .markup ∧ 0 < d.line then d
  else
    match d.details with
    | none => d
    | some excerpt =>
      if excerpt.isEmpty then d
      else
        match Text.findOffset excerpt.toList source.toList with
        | none => d
        | some start =>
          let whole := d.locate source start
          if d.line = 0 then whole
          else if d.line = 1 then { whole with column := whole.column + (d.column - 1) }
          else { whole with line := whole.line + (d.line - 1), column := d.column }

def kind (d : Diagnostic) : String := d.code.kind

def report : String :=
  let head := d.kind ++ " (" ++ d.code.text ++ "): " ++ d.message
  match d.details with
  | some excerpt => head ++ "\n" ++ excerpt
  | none => head

end Diagnostic

end ReactiveMarkup
