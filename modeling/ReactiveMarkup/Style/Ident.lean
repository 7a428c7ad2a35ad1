import ReactiveMarkup.Style.Token
import ReactiveMarkup.Text.Quoted

/-! # Written form of names and strings

Names and strings are written so that reading them gives the same text back.
-/

namespace ReactiveMarkup.Style

def codeEscape (c : Char) : String := "\\" ++ Text.hexDigits c.toNat ++ " "

def escapedChar (c : Char) : String :=
  if c.toNat == 0 then String.singleton replacement
  else if c.isAlphanum || c == '_' || c == '-' || 0x80 ≤ c.toNat then String.singleton c
  else if (0x1 ≤ c.toNat && c.toNat ≤ 0x1F) || c.toNat == 0x7F then codeEscape c
  else "\\" ++ String.singleton c

def nameText (cs : List Char) : String := String.join (cs.map escapedChar)

/-- A whole name; a digit at its start, or after one hyphen, is written by its code. -/
def identText (name : String) : String :=
  match name.toList with
  | [] => ""
  | '-' :: '-' :: rest => "--" ++ nameText rest
  | ['-'] => "\\-"
  | '-' :: c :: rest =>
    if c.isDigit then "-" ++ codeEscape c ++ nameText rest else "-" ++ nameText (c :: rest)
  | c :: rest =>
    if c.isDigit then codeEscape c ++ nameText rest else nameText (c :: rest)

def stringChar (c : Char) : String :=
  if c == '"' then "\\\""
  else if c == '\\' then "\\\\"
  else if c.toNat == 0 then String.singleton replacement
  else if (0x1 ≤ c.toNat && c.toNat ≤ 0x1F) || c.toNat == 0x7F then codeEscape c
  else String.singleton c

def stringText (s : String) : String := "\"" ++ String.join (s.toList.map stringChar) ++ "\""

def urlChar (c : Char) : String :=
  if c.toNat ≤ 0x20 || c.toNat == 0x7F then codeEscape c
  else if c == '(' || c == ')' || c == '"' || c == '\x27' || c == '\\' then
    "\\" ++ String.singleton c
  else String.singleton c

def urlText (s : String) : String :=
  let bare := "url(" ++ String.join (s.toList.map urlChar) ++ ")"
  let quoted := stringText s
  if s.utf8ByteSize + 7 < bare.utf8ByteSize && quoted.utf8ByteSize + 5 < bare.utf8ByteSize then
    "url(" ++ quoted ++ ")"
  else bare

end ReactiveMarkup.Style
