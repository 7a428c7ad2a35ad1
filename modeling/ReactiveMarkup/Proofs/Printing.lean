import ReactiveMarkup.Proofs.Spans

/-! # Printed markup

One way of writing each markup tree: a blank before each attribute, every attribute as it is
spelled, and the header of each block between braces. A tree is `Written` when its texts, names,
attributes and headers can stand in markup as what they are.
-/

namespace ReactiveMarkup.Markup

/-! ## Texts -/

/-- Quotes are closed and, outside them, braces are balanced. `quote` is the open quote and `depth`
the number of open braces. -/
def balancedFrom (quote : Option Char) (depth : Nat) : List Char → Bool
  | [] => quote.isNone && depth == 0
  | c :: cs =>
    match quote with
    | some q => balancedFrom (if c == q then none else some q) depth cs
    | none =>
      if isQuote c then balancedFrom (some c) depth cs
      else if c == '\x7b' then balancedFrom none (depth + 1) cs
      else if c == '\x7d' then depth != 0 && balancedFrom none (depth - 1) cs
      else balancedFrom none depth cs

def Balanced (s : String) : Prop := balancedFrom none 0 s.toList = true

instance (s : String) : Decidable (Balanced s) :=
  inferInstanceAs (Decidable (balancedFrom none 0 s.toList = true))

/-- Nothing opens a tag, a comment or a control tag. -/
structure Plain (cs : List Char) : Prop where
  tags : '<' ∉ cs
  controls : ∀ m ∈ ['#', '/', ':', '@'], ¬ ['\x7b', m] <:+: cs

structure PlainText (v : String) : Prop where
  some : v.toList ≠ []
  plain : Plain v.toList

/-- A comment with its marks; the first `-->` ends it. -/
structure PlainComment (c : String) : Prop where
  opens : "<!--".toList <+: c.toList
  closes : "-->".toList <:+ c.toList
  first : ¬ "-->".toList <:+: c.toList.dropLast

/-! ## Headers -/

namespace Control

def Formed : Control → Prop
  | sysTag h => ∃ c rest, h.toList = '@' :: c :: rest ∧ Text.isWord c = true
  | each h => "#each ".toList <+: h.toList
  | cond h => "#if ".toList <+: h.toList
  | await h => "#await ".toList <+: h.toList
  | onValue h => h = ":then" ∨ ":then ".toList <+: h.toList
  | onError h => h = ":catch" ∨ ":catch ".toList <+: h.toList
  | slot h => h = "#slot" ∨ "#slot ".toList <+: h.toList ∨ "#slot:".toList <+: h.toList
  | fragment h => ∃ c rest, h.toList = "#fragment".toList ++ c :: rest ∧ Text.isWord c = false
  | eachEnd | otherwise | condEnd | awaitEnd | slotEnd | fragmentEnd => True

/-- The header has the form of its role and ends with the braces around it. -/
structure Written (c : Control) : Prop where
  formed : c.Formed
  balanced : Balanced c.header

end Control

/-! ## Tags -/

def isTagName : List Char → Bool
  | [] => false
  | c :: cs => c.isAlphanum && cs.all fun d => d.isAlphanum || d == '-'

def isNameChar (c : Char) : Bool :=
  !(Text.isTagBlank c || isQuote c || c == '\x7b' || c == '\x7d' || c == '<' || c == '>' ||
    c == '/' || c == '=')

structure BareName (n : String) : Prop where
  some : n.toList ≠ []
  chars : n.toList.all isNameChar = true

/-- The ways to spell an attribute: a bare name, a quoted value, an expression, or an expression
alone. -/
inductive Attribute.Written : Attribute → Prop
  | bare : BareName n → Attribute.Written ⟨n, none, n⟩
  | quoted : BareName n → '"' ∉ v.toList → Attribute.Written ⟨n, some v, n ++ "=\"" ++ v ++ "\""⟩
  | code : BareName n → Balanced e → Attribute.Written ⟨n, some (braced e), n ++ "=" ++ braced e⟩
  | short : Balanced e → Attribute.Written ⟨braced e, none, braced e⟩

inductive WrittenArg : String → Prop
  | name : a.toList.all isNameChar = true → WrittenArg a
  | code : Balanced e → WrittenArg (braced e)

structure Element.Written (e : Element) : Prop where
  name : isTagName e.name.toList = true
  ordinary : rawKind? e.name = none
  arg : ∀ a, e.arg = some a → WrittenArg a
  attributes : ∀ a ∈ e.attributes, a.Written
  void : e.void = voidNames.contains e.name
  closed : e.void = true → e.closed = true
  unscoped : e.classes = []

def argText : Option String → String
  | some a => ":" ++ a
  | none => ""

def attributesText : List Attribute → String
  | [] => ""
  | a :: as => " " ++ a.content ++ attributesText as

/-- The open tag of an element; `slash` says which void elements end with a slash. -/
def Element.tagText (slash : Element → Bool) (e : Element) : String :=
  "<" ++ e.name ++ argText e.arg ++ attributesText e.attributes ++
    if e.closed && (!e.void || slash e) then "/>" else ">"

/-! ## Trees -/

mutual

def Node.print (slash : Element → Bool) : Node → String
  | .element e body _ =>
    e.tagText slash ++ if e.closed then "" else printAll slash body ++ "</" ++ e.name ++ ">"
  | .text v _ => v
  | .comment c _ => c
  | .raw b => b.openTag ++ b.content ++ "</" ++ b.name ++ ">"
  | .each h body _ => braced h ++ printAll slash body ++ braced Control.eachEnd.header
  | .cond h body hasElse alt _ =>
    braced h ++ printAll slash body ++
      (if hasElse then braced Control.otherwise.header ++ printAll slash alt else "") ++
      braced Control.condEnd.header
  | .await h main th tb ch cb _ =>
    braced h ++ printAll slash main ++
      (match th with
        | some t => braced t ++ printAll slash tb
        | none => "") ++
      (match ch with
        | some t => braced t ++ printAll slash cb
        | none => "") ++
      braced Control.awaitEnd.header
  | .slot h body _ => braced h ++ printAll slash body ++ braced Control.slotEnd.header
  | .fragment h body _ => braced h ++ printAll slash body ++ braced Control.fragmentEnd.header
  | .sysTag h _ => braced h

def printAll (slash : Element → Bool) : List Node → String
  | [] => ""
  | n :: ns => n.print slash ++ printAll slash ns

end

mutual

def Node.Written : Node → Prop
  | .element e body _ => e.Written ∧ (e.closed = true → body = []) ∧ AllWritten body
  | .text v _ => PlainText v
  | .comment c _ => PlainComment c
  | .raw _ => False
  | .each h body _ => (Control.each h).Written ∧ AllWritten body
  | .cond h body hasElse alt _ =>
    (Control.cond h).Written ∧ AllWritten body ∧ (hasElse = false → alt = []) ∧ AllWritten alt
  | .await h main th tb ch cb _ =>
    (Control.await h).Written ∧ AllWritten main ∧
      (∀ t, th = some t → (Control.onValue t).Written) ∧ (th = none → tb = []) ∧ AllWritten tb ∧
      (∀ t, ch = some t → (Control.onError t).Written) ∧ (ch = none → cb = []) ∧ AllWritten cb
  | .slot h body _ => (Control.slot h).Written ∧ AllWritten body
  | .fragment h body _ => (Control.fragment h).Written ∧ AllWritten body
  | .sysTag h _ => (Control.sysTag h).Written

/-- Written nodes of which no two texts stand side by side. -/
def AllWritten : List Node → Prop
  | [] => True
  | n :: ns => n.Written ∧ (n.isText = true → ns.head?.any Node.isText = false) ∧ AllWritten ns

end

mutual

/-- A node without what its place in a source says: spans, numbers and the texts of open tags. -/
def Node.forget : Node → Node
  | .element e body _ => .element { e with id := 0, openTag := "" } (forgetAll body) ⟨0, 0⟩
  | .text v _ => .text v ⟨0, 0⟩
  | .comment c _ => .comment c ⟨0, 0⟩
  | .raw b => .raw { b with openTag := "", span := ⟨0, 0⟩ }
  | .each h body _ => .each h (forgetAll body) ⟨0, 0⟩
  | .cond h body hasElse alt _ => .cond h (forgetAll body) hasElse (forgetAll alt) ⟨0, 0⟩
  | .await h main th tb ch cb _ =>
    .await h (forgetAll main) th (forgetAll tb) ch (forgetAll cb) ⟨0, 0⟩
  | .slot h body _ => .slot h (forgetAll body) ⟨0, 0⟩
  | .fragment h body _ => .fragment h (forgetAll body) ⟨0, 0⟩
  | .sysTag h _ => .sysTag h ⟨0, 0⟩

def forgetAll : List Node → List Node
  | [] => []
  | n :: ns => n.forget :: forgetAll ns

end

attribute [simp] Node.print printAll Node.forget forgetAll

theorem forgetAll_eq_map : forgetAll ns = ns.map Node.forget := by
  induction ns with
  | nil => rfl
  | cons n ns ih => rw [forgetAll, ih, List.map_cons]

end ReactiveMarkup.Markup
