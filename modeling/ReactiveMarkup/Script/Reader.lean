import ReactiveMarkup.Script.Lexer
import ReactiveMarkup.Script.Tree

/-! # Reading scripts

A reader takes the tokens of a script from the current one on, and has no result where the script
is malformed.
-/

namespace ReactiveMarkup.Script

open Text (Span)

structure Context where
  allowIn : Bool := true
  allowYield : Bool := false
  allowAwait : Bool := false
  allowReturn : Bool := false

/-- The current token, the end of the one before it, and the comments met so far, latest first,
each with the start of the token that it leads up to. -/
structure Position where
  token : Token
  lastStop : Nat
  comments : List (Nat × List Comment)

abbrev Reader := ReaderT Context (StateT Position Option)

namespace Reader

variable {α : Type}

def fail : Reader α := fun _ _ => none

def current : Reader Token := return (← get).token

def here : Reader Nat := return (← current).start

def place (t : Token) : Reader Unit :=
  modify fun p =>
    { token := t
      lastStop := p.token.stop
      comments := if t.comments.isEmpty then p.comments else (t.start, t.comments) :: p.comments }

def advance : Reader Unit := do
  match (← current).next with
  | some t => place t
  | none => fail

def reread (f : Token → Option Token) : Reader Unit := do
  match f (← current) with
  | some t => modify fun p => { p with token := t }
  | none => fail

def peek : Reader Token := do
  match (← current).next with
  | some t => return t
  | none => fail

def at? (m : String) : Reader Bool := return (← current).isMark m

def atWord? (w : String) : Reader Bool := return (← current).isWord w

def eat? (m : String) : Reader Bool := do
  if ← at? m then
    advance
    return true
  else return false

def eatWord? (w : String) : Reader Bool := do
  if ← atWord? w then
    advance
    return true
  else return false

def expect (m : String) : Reader Unit := do
  unless ← eat? m do fail

def expectWord (w : String) : Reader Unit := do
  unless ← eatWord? w do fail

def build (start : Nat) (form : Form) (parts : List Tree) : Reader Tree := do
  return .node form ⟨start, (← get).lastStop⟩ parts

/-- A tree over all that is read for it. -/
def tree (p : Reader (Form × List Tree)) : Reader Tree := do
  let start ← here
  let (form, parts) ← p
  build start form parts

def lone (form : Form) : Reader Tree := tree do
  advance
  return (form, [])

def attempt (p : Reader α) : Reader (Option α) := fun ctx pos =>
  match p ctx pos with
  | some (a, pos) => some (some a, pos)
  | none => some (none, pos)

def within (f : Context → Context) (p : Reader α) : Reader α := withReader f p

def withIn (p : Reader α) : Reader α := within ({ · with allowIn := true }) p

/-- Repeats an item until `done`; every item takes at least one token, so the text that is left
bounds their number. -/
def repeatUntil (done : Reader Bool) (item : Reader α) : Nat → Reader (List α)
  | 0 => fail
  | fuel + 1 => do
    if ← done then return []
    else
      let a ← item
      let rest ← repeatUntil done item fuel
      return a :: rest

def many (done : Reader Bool) (item : Reader α) : Reader (List α) := do
  repeatUntil done item ((← current).rest.length + 2)

def manyTo (close : String) (item : Reader α) : Reader (List α) := do
  let items ← many (at? close) item
  expect close
  return items

def separated (close : String) (item : Reader α) : Reader α := do
  let a ← item
  unless ← at? close do expect ","
  return a

def commaTo (close : String) (item : Reader α) : Reader (List α) :=
  manyTo close (separated close item)

/-- The end of a statement: a semicolon, or a place where one may be left out. -/
def endStatement : Reader Unit := do
  let t ← current
  if t.isMark ";" then advance
  else if t.isMark "\x7d" || t.isEnd || t.afterNewline then return
  else fail

def fitsName (ctx : Context) (w : String) : Bool :=
  !reservedWords.contains w && !(w == "await" && ctx.allowAwait) && !(w == "yield" && ctx.allowYield)

def bindingName : Reader Tree := do
  match (← current).word? with
  | some w => if fitsName (← read) w then lone (.name w) else fail
  | none => fail

def anyName : Reader Tree := do
  match (← current).word? with
  | some w => lone (.name w)
  | none => fail

def stringPoints : Reader (List Nat) := do
  match (← current).lexeme with
  | .string points _ =>
    advance
    return points
  | _ => fail

end Reader

/-- Readers of the constructs that contain each other. -/
structure Grammar where
  assignment : Reader Tree
  unary : Reader Tree
  /-- Operands joined by operators that bind tighter than the given level. -/
  operators : Nat → Reader Tree
  /-- A primary expression with its members: the callee of `new`. -/
  member : Reader Tree
  /-- A primary expression with its members and calls: the parent of a class. -/
  leftHandSide : Reader Tree
  pattern : Reader Tree
  /-- A statement; `single` where a declaration is not allowed. -/
  statement : (single : Bool) → Reader Tree

end ReactiveMarkup.Script
