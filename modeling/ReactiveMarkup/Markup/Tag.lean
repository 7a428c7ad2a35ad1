import ReactiveMarkup.Markup.Node
import ReactiveMarkup.Markup.Fault

/-! # Open tags

A tag is read one character at a time. Quoted text and balanced braces are opaque wherever they
stand; an attribute ends at a blank, at the brace that closes an expression, or with the tag.
-/

namespace ReactiveMarkup.Markup

def voidNames : List String :=
  ["fragment", "area", "base", "br", "col", "embed", "hr", "img", "input", "link", "meta",
    "param", "source", "track", "wbr"]

def backquote : Char := Char.ofNat 0x60

def isQuote (c : Char) : Bool := c == '"' || c == '\x27' || c == backquote

structure OpenTag where
  name : String
  arg : Option String
  attributes : List Attribute
  closed : Bool
  void : Bool
  deriving DecidableEq, Repr

/-- The attribute being read. `equals` is the number of characters before its first `=`; a `split`
attribute starts inside a character. -/
structure Partial where
  content : List Char := []
  equals : Option Nat := none
  split : Bool := false
  deriving DecidableEq, Repr

inductive ArgState where
  | absent
  | pending
  | given (value : String)
  deriving DecidableEq, Repr

/-- What has been read of a tag. Lists of characters are in reverse. -/
structure TagState where
  inName : Bool := true
  name : List Char := []
  arg : ArgState := .absent
  attributes : List Attribute := []
  current : Option Partial := none
  depth : Nat := 0
  quote : Option Char := none
  slash : Bool := false
  deriving DecidableEq, Repr

def unquote (cs : List Char) : List Char :=
  let isMark (c : Char) : Bool := c == '"' || c == '\x27'
  let cs := if cs.head?.any isMark then cs.tail else cs
  if cs.getLast?.any isMark then cs.dropLast else cs

def Partial.attribute (p : Partial) : Attribute :=
  let content := p.content.reverse
  match p.equals with
  | some n =>
    { name := String.ofList (content.take n)
      value := some (String.ofList (unquote (content.drop (n + 1))))
      content := String.ofList content }
  | none =>
    { name := String.ofList content, value := none, content := String.ofList content }

namespace TagState

variable (s : TagState) (c : Char)

def push : TagState :=
  { s with current := s.current.map fun p => { p with content := c :: p.content } }

def flush : Except Fault TagState :=
  match s.current with
  | none => .ok s
  | some p =>
    if p.split then .error .splitCharacter
    else
      match s.arg with
      | .pending =>
        .ok { s with current := none, arg := .given (String.ofList p.content.reverse) }
      | _ => .ok { s with current := none, attributes := p.attribute :: s.attributes }

def finish : Except Fault OpenTag := do
  let s ← s.flush
  let name := String.ofList s.name.reverse
  let void := voidNames.contains name
  return {
    name
    arg := match s.arg with
      | .given v => some v
      | _ => none
    attributes := s.attributes.reverse
    closed := void || s.slash
    void }

def start : TagState :=
  if !s.inName && s.current.isNone && !Text.isTagBlank c && c != '/' && c != '>' then
    { s with current := some {} }
  else s

/-- A character of the name, or the one that ends it. A character beyond ASCII ends the name with
its first byte, so that its second byte starts an attribute. -/
def nameChar : TagState :=
  if c.isAlphanum || (c == '-' && !s.name.isEmpty) then { s with name := c :: s.name }
  else if c == ':' then { s with inName := false, arg := .pending, current := some {} }
  else if c.toNat < 0x80 then { s with inName := false }
  else { s with inName := false, current := some { split := true } }

def attributeChar : Except Fault TagState :=
  match s.current with
  | none => .ok s
  | some p =>
    if c == '=' && p.equals.isNone then
      .ok { s with
        current := some { p with content := c :: p.content, equals := some p.content.length } }
    else if Text.isTagBlank c then s.flush
    else .ok (s.push c)

def step (start pos : Nat) (s : TagState) (c : Char) : Except Fault (TagState ⊕ OpenTag) :=
  let stop := pos + c.utf8Size
  if s.slash then
    if c == '>' then s.finish.map .inr
    else .error (.strayClosingSlash start (pos + 1))
  else
    match s.quote with
    | some q => .ok (.inl (if c == q then { s.push c with quote := none } else s.push c))
    | none =>
      let s := s.start c
      if isQuote c then .ok (.inl { s.push c with quote := some c })
      else if c == '\x7b' then .ok (.inl { s.push c with depth := s.depth + 1 })
      else if s.depth > 0 then
        if c == '\x7d' then
          let s : TagState := { s.push c with depth := s.depth - 1 }
          if s.depth = 0 then s.flush.map .inl else .ok (.inl s)
        else .ok (.inl (s.push c))
      else if c == '\x7d' then .error (.strayBrace start stop)
      else if c == '<' then .error (.nestedTag start stop)
      else if c == '/' then .ok (.inl { s with slash := true })
      else if c == '>' then s.finish.map .inr
      else if s.inName then .ok (.inl (s.nameChar c))
      else (s.attributeChar c).map .inl

end TagState

/-- Reads the rest of a tag whose `<` is at byte `start`; `pos` is the offset of the next
character. -/
def readTag (start : Nat) (s : TagState) (pos : Nat) :
    List Char → Except Fault (OpenTag × List Char)
  | [] => .error (.unfinished "tag" start)
  | c :: rest =>
    match s.step start pos c with
    | .error f => .error f
    | .ok (.inl s) => readTag start s (pos + c.utf8Size) rest
    | .ok (.inr tag) => .ok (tag, rest)

theorem readTag_length {start : Nat} :
    ∀ {cs rest : List Char} {s : TagState} {pos : Nat} {tag : OpenTag},
      readTag start s pos cs = .ok (tag, rest) → rest.length < cs.length := by
  intro cs
  induction cs with
  | nil => intro rest s pos tag h; simp [readTag] at h
  | cons c cs ih =>
    intro rest s pos tag h
    rw [readTag] at h
    simp only [List.length_cons]
    split at h
    · simp at h
    · have := ih h
      omega
    · simp only [Except.ok.injEq, Prod.mk.injEq] at h
      obtain ⟨_, rfl⟩ := h
      omega

end ReactiveMarkup.Markup
