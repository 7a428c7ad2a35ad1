import ReactiveMarkup.Number.Binary
import ReactiveMarkup.Text.Letter

/-! # Script tokens

A token knows where it stands, whether a line ends before it, which comments lead up to it, and the
text that follows it, from which the next token is read.
-/

namespace ReactiveMarkup.Script

/-- A comment with its delimiters. The flags tell whether a line ends just before and after it. -/
structure Comment where
  text : String
  isLine : Bool
  afterNewline : Bool
  beforeNewline : Bool
  deriving DecidableEq, Repr

inductive Lexeme where
  /-- An identifier or keyword; `escaped` when written with escapes. -/
  | word (text : String) (escaped : Bool)
  | privateName (text : String)
  | mark (text : String)
  | number (value : Number.Binary)
  | bigint (text : String)
  /-- The code points of a string, surrogates included, and the text between its quotes. -/
  | string (points : List Nat) (raw : String)
  /-- A piece of a template; `last` when the template ends with it, `valid` when its escapes
  have a meaning. -/
  | template (raw : String) (last valid : Bool)
  | regex (pattern flags : String)
  | endOfFile
  deriving DecidableEq, Repr

/-- A token from byte `start` to byte `stop`; `rest` is the text after it. -/
structure Token where
  lexeme : Lexeme
  start : Nat
  stop : Nat
  afterNewline : Bool
  comments : List Comment
  rest : List Char

namespace Token

variable (t : Token)

def isMark (m : String) : Bool :=
  match t.lexeme with
  | .mark text => text == m
  | _ => false

def isWord (w : String) : Bool :=
  match t.lexeme with
  | .word text escaped => !escaped && text == w
  | _ => false

def mark? : Option String :=
  match t.lexeme with
  | .mark text => some text
  | _ => none

def word? : Option String :=
  match t.lexeme with
  | .word text _ => some text
  | _ => none

def isEnd : Bool := t.lexeme = .endOfFile

end Token

def reservedWords : List String :=
  ["break", "case", "catch", "class", "const", "continue", "debugger", "default", "delete", "do",
    "else", "enum", "export", "extends", "false", "finally", "for", "function", "if", "import",
    "in", "instanceof", "new", "null", "return", "super", "switch", "this", "throw", "true", "try",
    "typeof", "var", "void", "while", "with"]

end ReactiveMarkup.Script
