import ReactiveMarkup.Markup.Lexeme

/-! # Reading markup

Lexemes are assembled into a tree by a stack of open constructs.
-/

namespace ReactiveMarkup.Markup

/-- A construct whose end has not been read. `start` is its first byte; sections that are complete
are kept with it. -/
inductive Frame where
  | element (head : Element) (start : Nat)
  | each (header : String) (start : Nat)
  | cond (header : String) (start : Nat)
  | otherwise (header : String) (start : Nat) (body : List Node)
  | await (header : String) (start : Nat)
  | onValue (header : String) (start : Nat) (main : List Node) (thenHeader : String)
  | onError (header : String) (start : Nat) (main : List Node)
      (thenHeader : Option String) (thenBody : List Node) (catchHeader : String)
  | slot (header : String) (start : Nat)
  | fragment (header : String) (start : Nat)

/-- `nodes` are the finished siblings in reverse; `stack` holds the open constructs, innermost
first, each with the finished siblings before it. -/
structure Assembly where
  nodes : List Node := []
  stack : List (Frame × List Node) := []
  nextId : Nat := 0

namespace Assembly

variable (a : Assembly)

def add (n : Node) : Assembly := { a with nodes := n :: a.nodes }

def enter (f : Frame) : Assembly :=
  { a with nodes := [], stack := (f, a.nodes) :: a.stack }

def turn (f : Frame) (outer : List Node) (below : List (Frame × List Node)) : Assembly :=
  { a with nodes := [], stack := (f, outer) :: below }

def leave (n : Node) (outer : List Node) (below : List (Frame × List Node)) : Assembly :=
  { a with nodes := n :: outer, stack := below }

def body : List Node := a.nodes.reverse

end Assembly

def Element.ofTag (id : Nat) (tag : OpenTag) (text : String) : Element where
  id := id
  name := tag.name
  arg := tag.arg
  attributes := tag.attributes
  openTag := text
  closed := tag.closed
  void := tag.void

/-- The fault when `found` ends the construct of a frame that it does not fit. `stop` is the byte
after it. -/
def Frame.interrupted (frame : Frame) (found : Found) (stop : Nat) : Fault :=
  match frame with
  | .element e start =>
    match found with
    | .endOfFile => .openElement e.openTag start
    | .closeTag name => .wrongClose e.name name e.openTag start
    | .control _ => .elementInterrupted found e.openTag start
  | .each h _ | .cond h _ | .otherwise h _ _ | .await h _ | .onValue h _ _ _
  | .onError h _ _ _ _ _ | .slot h _ | .fragment h _ => .blockInterrupted found h stop

inductive Ending where
  | closeTag (name : String)
  | control (role : Control) (header : String)

def Ending.found : Ending → Found
  | .closeTag name => .closeTag name
  | .control _ header => .control header

def Assembly.end (a : Assembly) (ending : Ending) (stop : Nat) : Except Fault Assembly :=
  match a.stack with
  | [] =>
    match ending with
    | .closeTag name => .error (.strayClose name stop)
    | .control _ header => .error (.strayControl (.control header) stop)
  | (frame, outer) :: below =>
    let refuse : Except Fault Assembly := .error (frame.interrupted ending.found stop)
    match frame, ending with
    | .element e start, .closeTag name =>
      if name = e.name then .ok (a.leave (.element e a.body ⟨start, stop⟩) outer below) else refuse
    | .each h start, .control .eachEnd _ =>
      .ok (a.leave (.each h a.body ⟨start, stop⟩) outer below)
    | .cond h start, .control .condEnd _ =>
      .ok (a.leave (.cond h a.body false [] ⟨start, stop⟩) outer below)
    | .cond h start, .control .otherwise _ =>
      .ok (a.turn (.otherwise h start a.body) outer below)
    | .otherwise h start body, .control .condEnd _ =>
      .ok (a.leave (.cond h body true a.body ⟨start, stop⟩) outer below)
    | .await h start, .control .awaitEnd _ =>
      .ok (a.leave (.await h a.body none [] none [] ⟨start, stop⟩) outer below)
    | .await h start, .control (.onValue part) _ =>
      .ok (a.turn (.onValue h start a.body part) outer below)
    | .await h start, .control (.onError part) _ =>
      .ok (a.turn (.onError h start a.body none [] part) outer below)
    | .onValue h start main part, .control .awaitEnd _ =>
      .ok (a.leave (.await h main (some part) a.body none [] ⟨start, stop⟩) outer below)
    | .onValue h start main part, .control (.onError part') _ =>
      .ok (a.turn (.onError h start main (some part) a.body part') outer below)
    | .onError h start main thenHeader thenBody part, .control .awaitEnd _ =>
      .ok (a.leave (.await h main thenHeader thenBody (some part) a.body ⟨start, stop⟩) outer below)
    | .slot h start, .control .slotEnd _ =>
      .ok (a.leave (.slot h a.body ⟨start, stop⟩) outer below)
    | .fragment h start, .control .fragmentEnd _ =>
      .ok (a.leave (.fragment h a.body ⟨start, stop⟩) outer below)
    | _, _ => refuse

def Assembly.feed (a : Assembly) (l : Lexeme) : Except Fault Assembly :=
  let span : Text.Span := ⟨l.start, l.stop⟩
  match l.token with
  | .text value => .ok (a.add (.text value span))
  | .comment content => .ok (a.add (.comment content span))
  | .raw kind tag openTag content =>
    .ok (a.add (.raw { kind, attributes := tag.attributes, openTag, content, span }))
  | .openTag tag text =>
    let e := Element.ofTag a.nextId tag text
    let a := { a with nextId := a.nextId + 1 }
    if tag.closed then .ok (a.add (.element e [] span)) else .ok (a.enter (.element e l.start))
  | .closeTag name => a.end (.closeTag name) l.stop
  | .control role header =>
    match role with
    | .sysTag h => .ok (a.add (.sysTag h span))
    | .each h => .ok (a.enter (.each h l.start))
    | .cond h => .ok (a.enter (.cond h l.start))
    | .await h => .ok (a.enter (.await h l.start))
    | .slot h => .ok (a.enter (.slot h l.start))
    | .fragment h => .ok (a.enter (.fragment h l.start))
    | role => a.end (.control role header) l.stop

def Assembly.finish (a : Assembly) (size : Nat) : Except Fault Root :=
  match a.stack with
  | [] => .ok { body := a.body, span := ⟨0, size⟩ }
  | (frame, _) :: _ => .error (frame.interrupted .endOfFile size)

def Assembly.feedAll (a : Assembly) (ls : List Lexeme) : Except Fault Assembly :=
  ls.foldlM Assembly.feed a

/-- Why a source has no tree: a diagnostic, or a text that would be cut inside a character. -/
inductive Halt where
  | diagnostic (d : Diagnostic)
  | splitCharacter

def Halt.ofFault (source : String) (f : Fault) : Halt :=
  match f.diagnose source with
  | some d => .diagnostic d
  | none => .splitCharacter

def parseFault (source : String) : Except Fault Root := do
  let (ls, fault) := lexemes 0 source.toList
  let a ← ({} : Assembly).feedAll ls
  match fault with
  | some f => throw f
  | none => a.finish source.utf8ByteSize

def parse (source : String) : Except Halt Root :=
  (parseFault source).mapError (Halt.ofFault source)

end ReactiveMarkup.Markup
