import ReactiveMarkup.Number.Binary
import ReactiveMarkup.Text.Offset

/-! # Script trees

A tree has a form, the bytes it covers and its parts. The parts that each form has are listed with
it; a part that is left out in the source is `absent`.
-/

namespace ReactiveMarkup.Script

open Text (Span)

inductive Role where
  | value
  | method
  | getter
  | setter
  deriving DecidableEq, Repr

inductive Form where
  | absent
  | name (text : String)
  | privateName (text : String)
  /-- One of `this`, `super`, `null`, `true` and `false`. -/
  | constant (word : String)
  | number (value : Number.Binary)
  | bigint (text : String)
  | string (points : List Nat) (raw : String)
  | regex (pattern flags : String)
  /-- The expressions between the pieces. -/
  | template (pieces : List String)
  | metaProperty (word property : String)
  | array
  | hole
  /-- The expression spread. `final` tells that no comma follows it. -/
  | spread (final : Bool)
  | object
  /-- Key and value. -/
  | property (role : Role) (computed shorthand : Bool)
  | paren
  /-- Name, parameters, body. -/
  | function (declared isAsync generator : Bool)
  | params
  | body (directives : List String)
  /-- Parameters, body. The body of a concise arrow is an expression. -/
  | arrow (isAsync concise : Bool)
  /-- Name, superclass, members. -/
  | classOf (declared : Bool)
  /-- Key and value. -/
  | classMember (role : Role) (isStatic computed accessor : Bool)
  | staticBlock
  | unary (op : String)
  | update (op : String) (before : Bool)
  /-- Left and right operand. -/
  | binary (op : String)
  /-- Test, consequence, alternative. -/
  | conditional
  /-- Target and value. -/
  | assign (op : String)
  | sequence
  /-- Callee, arguments. -/
  | call (optional : Bool)
  /-- Callee, arguments. -/
  | new
  /-- Object, name. -/
  | dot (optional : Bool)
  /-- Object, key. -/
  | index (optional : Bool)
  /-- A member or call with an optional link. -/
  | chain
  /-- Tag, template. -/
  | tagged
  /-- Source, options. -/
  | importCall
  | yield (delegate : Bool)
  | await
  /-- The elements: targets of an assignment. -/
  | arrayTarget
  /-- The properties: targets of an assignment. -/
  | objectTarget
  /-- The elements: names to bind. -/
  | arrayPattern
  /-- The properties: names to bind. -/
  | objectPattern
  /-- Target, default value. -/
  | defaulted
  /-- The target of all that remains. -/
  | rest
  | block
  | empty
  | expression
  | declaration (kind : String)
  /-- Pattern, initial value. -/
  | declarator
  /-- Test, consequence, alternative. -/
  | ifElse
  /-- Start, test, update, body. -/
  | forLoop
  /-- Target, object, body. -/
  | forIn
  /-- Target, iterable, body. -/
  | forOf (isAwait : Bool)
  /-- Test, body. -/
  | whileLoop
  /-- Body, test. -/
  | doLoop
  | jump (word : String)
  | returns
  | throws
  /-- Object, body. -/
  | withObject
  /-- Subject, cases. -/
  | switchOn
  /-- Test, statements. -/
  | caseOf
  /-- Label, body. -/
  | labeled
  /-- Block, handler, final block. -/
  | attempt
  /-- Pattern, block. -/
  | handler
  | debugger
  /-- The specifiers; `listed` when there is any form of them. -/
  | importFrom (source : List Nat) (listed : Bool) (attributes : List (String × List Nat))
  | importDefault
  | importAll
  /-- Imported name, local name. -/
  | importName
  | exportDeclaration
  | exportNames (source : Option (List Nat))
  /-- Local name, exported name. -/
  | exportName
  /-- The declaration or expression. -/
  | exportDefault
  | exportAll (source : List Nat)
  | program (directives : List String)
  deriving DecidableEq, Repr

inductive Tree where
  | node (form : Form) (span : Span) (parts : List Tree)

namespace Tree

def form : Tree → Form
  | node f _ _ => f

def span : Tree → Span
  | node _ s _ => s

def parts : Tree → List Tree
  | node _ _ ps => ps

def start (t : Tree) : Nat := t.span.start

def stop (t : Tree) : Nat := t.span.stop

def absent : Tree := node .absent ⟨0, 0⟩ []

def isAbsent (t : Tree) : Bool := t.form = .absent

def name? (t : Tree) : Option String :=
  match t.form with
  | .name n => some n
  | _ => none

def unparen : Tree → Tree
  | node .paren _ [e] => e.unparen
  | t => t

def isNamedMember : Tree → Bool
  | node (.dot _) _ [_, key] => key.name?.isSome
  | _ => false

mutual

/-- Computes a result for every tree from its form and its parts, each with its own result. -/
def build {β : Type} (f : Form → Span → List (Tree × β) → β) : Tree → β
  | node form s ps => f form s (buildAll f ps)

def buildAll {β : Type} (f : Form → Span → List (Tree × β) → β) : List Tree → List (Tree × β)
  | [] => []
  | t :: ts => (t, build f t) :: buildAll f ts

end

mutual

def any (p : Tree → Bool) : Tree → Bool
  | node f s ps => p (node f s ps) || anyOf p ps

def anyOf (p : Tree → Bool) : List Tree → Bool
  | [] => false
  | t :: ts => any p t || anyOf p ts

end

end Tree

end ReactiveMarkup.Script
