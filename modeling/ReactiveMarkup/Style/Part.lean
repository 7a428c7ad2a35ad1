import ReactiveMarkup.Style.Token

/-! # Component values

Tokens with their brackets matched. A closing bracket ends only the innermost group of its own
shape and is an ordinary token elsewhere; the end of the text ends every group.
-/

namespace ReactiveMarkup.Style

open Text (Span)

inductive Opener where
  | function (name : String)
  | bracket (b : Bracket)
  deriving DecidableEq, Repr

def Opener.closing : Opener → Bracket
  | function _ => .round
  | bracket b => b

/-- `inner` covers the text between the brackets of a group. -/
inductive Part where
  | leaf (token : Token) (span : Span)
  | group (opener : Opener) (body : List Part) (span inner : Span)

namespace Part

def span : Part → Span
  | leaf _ s => s
  | group _ _ s _ => s

def isBlank : Part → Bool
  | leaf (.blank _) _ => true
  | _ => false

def isComment : Part → Bool
  | leaf (.comment _) _ => true
  | _ => false

def isComma : Part → Bool
  | leaf .comma _ => true
  | _ => false

def isCurly : Part → Bool
  | group (.bracket .curly) _ _ _ => true
  | _ => false

end Part

/-- An open group: where it starts, where its body starts, and the parts before it in reverse. -/
structure OpenGroup where
  opener : Opener
  start : Nat
  bodyStart : Nat
  before : List Part

/-- Parts of the innermost open group in reverse, and the groups around them. -/
structure Nest where
  parts : List Part := []
  groups : List OpenGroup := []

namespace Nest

def enter (n : Nest) (opener : Opener) (span : Span) : Nest :=
  { parts := []
    groups := { opener, start := span.start, bodyStart := span.stop, before := n.parts } :: n.groups }

def add (n : Nest) (p : Part) : Nest := { n with parts := p :: n.parts }

def leave (n : Nest) (g : OpenGroup) (below : List OpenGroup) (closer : Span) : Nest :=
  { parts := .group g.opener n.parts.reverse ⟨g.start, closer.stop⟩ ⟨g.bodyStart, closer.start⟩
      :: g.before
    groups := below }

def feed (n : Nest) (l : Lexeme) : Nest :=
  match l.token with
  | .function name => n.enter (.function name) l.span
  | .opening b => n.enter (.bracket b) l.span
  | .closing b =>
    match n.groups with
    | g :: below =>
      if g.opener.closing = b then n.leave g below l.span else n.add (.leaf l.token l.span)
    | [] => n.add (.leaf l.token l.span)
  | t => n.add (.leaf t l.span)

def finish (size : Nat) (n : Nest) : List Part :=
  (n.groups.foldl (fun m g => m.leave g [] ⟨size, size⟩) n).parts.reverse

end Nest

def partsOf (source : List Char) : List Part :=
  ((lexemesFrom 0 source).foldl Nest.feed {}).finish (Text.byteLength source)

def withoutComments (ps : List Part) : List Part := ps.filter fun p => !p.isComment

def Part.isSkipped (p : Part) : Bool := p.isBlank || p.isComment

def skipBlanks (ps : List Part) : List Part := ps.dropWhile Part.isSkipped

def splitParts (p : Part → Bool) : List Part → List (List Part)
  | [] => [[]]
  | x :: rest =>
    if p x then [] :: splitParts p rest
    else
      match splitParts p rest with
      | piece :: pieces => (x :: piece) :: pieces
      | [] => [[x]]

def trimParts (ps : List Part) : List Part :=
  ((skipBlanks ps).reverse.dropWhile Part.isSkipped).reverse

mutual

def Part.depth : Part → Nat
  | .leaf _ _ => 0
  | .group _ body _ _ => depthOf body + 1

def depthOf : List Part → Nat
  | [] => 0
  | p :: rest => max p.depth (depthOf rest)

end

end ReactiveMarkup.Style
