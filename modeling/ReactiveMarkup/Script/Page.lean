import ReactiveMarkup.Script.Literal
import ReactiveMarkup.Script.Module
import ReactiveMarkup.Text.Blank

/-! # The page that a script is written on

Text is appended with just the blanks that keep neighbouring tokens apart. The page remembers where
a statement, an arrow body or a default export starts, since some expressions need parentheses
there, and holds the comments that are still to be placed.
-/

namespace ReactiveMarkup.Script

structure Page where
  /-- Characters in reverse. -/
  written : List Char := []
  size : Nat := 0
  indent : Nat := 0
  /-- The next indentation is a single space. -/
  spaceNext : Bool := false
  statementStart : Option Nat := none
  arrowStart : Option Nat := none
  defaultStart : Option Nat := none
  /-- Where a pattern ended, after which a word needs a space. -/
  patternEnd : Option Nat := none
  /-- Where a number ended that would take a dot for its own. -/
  numberEnd : Option Nat := none
  /-- The operator written last and where it ended. -/
  operatorEnd : Option (String × Nat) := none
  comments : List (Nat × List Comment) := []

abbrev Print := StateM Page

namespace Print

def chars (cs : List Char) : Print Unit :=
  modify fun p => { p with written := cs.reverse ++ p.written, size := p.size + cs.length }

def put (s : String) : Print Unit := chars s.toList

def last? : Print (Option Char) := return (← get).written.head?

def space : Print Unit := put " "

def newline : Print Unit := put "\n"

def indentation : Print Unit := do
  let p ← get
  if p.spaceNext then
    space
    modify ({ · with spaceNext := false })
  else chars (List.replicate p.indent '\t')

def deeper (p : Print Unit) : Print Unit := do
  modify fun s => { s with indent := s.indent + 1 }
  p
  modify fun s => { s with indent := s.indent - 1 }

def wrap (needed : Bool) (p : Print Unit) : Print Unit := do
  if needed then put "("
  p
  if needed then put ")"

def wordGap : Print Unit := do
  let p ← get
  match p.written.head? with
  | none => pure ()
  | some c =>
    if p.patternEnd = some p.size || Text.isNameContinue c then space

def word (w : String) : Print Unit := do
  wordGap
  put w

def operatorGap (op : String) : Print Unit := do
  let p ← get
  match p.operatorEnd with
  | some (prev, stop) =>
    if stop = p.size then
      let plus := prev == "+" && (op == "+" || op == "++")
      let minus := prev == "-" && (op == "-" || op == "--")
      let markup := prev == "!" && op == "--" && (p.written.drop 1).head? == some '<'
      if plus || minus || markup then space
  | none => pure ()

def operator (op : String) : Print Unit := do
  operatorGap op
  put op
  modify fun p => { p with operatorEnd := some (op, p.size) }

def endStatement : Print Unit := put ";\n"

def separated {α : Type} (sep : String) (items : List α) (write : α → Print Unit) : Print Unit :=
  match items with
  | [] => pure ()
  | a :: rest => do
    write a
    rest.forM fun b => do
      put sep
      write b

def commas (items : List (Print Unit)) : Print Unit := separated ", " items id

def takeComments (start : Nat) : Print (List Comment) := do
  let p ← get
  match p.comments.lookup start with
  | some cs =>
    set { p with comments := p.comments.filter (·.1 != start) }
    return cs
  | none => return []

def hasComments (start : Nat) : Print Bool := return ((← get).comments.lookup start).isSome

def commentLines (cs : List Char) : List (List Char) :=
  cs.foldr
    (fun c acc =>
      match acc with
      | line :: rest => if isLineEnd c then [] :: line :: rest else (c :: line) :: rest
      | [] => [])
    [[]]

def isIndentChar (c : Char) : Bool := Text.isBlank c

def comment (c : Comment) : Print Unit := do
  let lines := commentLines c.text.toList
  if c.isLine || lines.length ≤ 1 then chars (protectClose c.text.toList)
  else
    lines.forM fun line => do
      unless "/*".toList.isPrefixOf line do indentation
      chars (protectClose (line.dropWhile isIndentChar))
      unless "*/".toList.isSuffixOf line do newline

def commentLead (first : Bool) (c : Comment) : Print Unit := do
  if first then
    if c.afterNewline then
      match ← last? with
      | some '\n' => indentation
      | some '\t' => pure ()
      | some _ =>
        newline
        indentation
      | none => pure ()
    else indentation
  else if c.afterNewline then
    newline
    indentation

def commentsFrom (first : Bool) : List Comment → Print Unit
  | [] => pure ()
  | [c] => do
    commentLead first c
    comment c
    if c.isLine || c.beforeNewline then newline
    else modify ({ · with spaceNext := true })
  | c :: rest => do
    commentLead first c
    comment c
    commentsFrom false rest

def leadingComments (start : Nat) : Print Unit := do
  commentsFrom true (← takeComments start)

def argumentComments (start : Nat) : Print Bool := do
  let cs ← takeComments start
  cs.forM fun c => do
    newline
    indentation
    comment c
  if cs.isEmpty then return false
  else
    newline
    return true

end Print

end ReactiveMarkup.Script
