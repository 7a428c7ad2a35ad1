import ReactiveMarkup.Diagnostic
import ReactiveMarkup.Style.Ident
import ReactiveMarkup.Style.Part
import ReactiveMarkup.Text.Blank

/-! # Selectors

A selector is a row of items: tests of one element, and between compounds a combinator or white
space. Escapes are decoded, the argument of a pseudo item is kept as written.
-/

namespace ReactiveMarkup.Style

inductive Operator where
  | equals
  | word
  | dash
  | start
  | stop
  | part
  deriving DecidableEq, Repr

def Operator.text : Operator → String
  | equals => "="
  | word => "~="
  | dash => "|="
  | start => "^="
  | stop => "$="
  | part => "*="

def Operator.ofChar? : Char → Option Operator
  | '~' => some word
  | '|' => some dash
  | '^' => some start
  | '$' => some stop
  | '*' => some part
  | _ => none

inductive CaseRule where
  | insensitive
  | sensitive
  deriving DecidableEq, Repr

def CaseRule.letter : CaseRule → String
  | insensitive => "i"
  | sensitive => "s"

def CaseRule.ofName? (name : String) : Option CaseRule :=
  [insensitive, sensitive].find? (·.letter == toLower name)

structure AttributeTest where
  name : String
  comparison : Option (Operator × String) := none
  caseRule : Option CaseRule := none
  deriving DecidableEq, Repr

inductive Combinator where
  | child
  | adjacent
  | sibling
  deriving DecidableEq, Repr

def Combinator.symbol : Combinator → Char
  | child => '>'
  | adjacent => '+'
  | sibling => '~'

def Combinator.ofChar? (c : Char) : Option Combinator :=
  [child, adjacent, sibling].find? (·.symbol == c)

inductive ItemKind where
  | type (name : String)
  | id (name : String)
  | «class» (name : String)
  | «attribute» (test : AttributeTest)
  | pseudoClass (name : String) (argument : Option String)
  | pseudoElement (name : String) (argument : Option String)
  | combinator (c : Combinator)
  | space
  deriving DecidableEq, Repr

/-- `isGlobal` marks what stood inside `:global(…)`. -/
structure Item where
  kind : ItemKind
  isGlobal : Bool := false
  deriving DecidableEq, Repr

namespace Item

def isPseudo (i : Item) : Bool :=
  match i.kind with
  | .pseudoClass .. | .pseudoElement .. => true
  | _ => false

def isBoundary (i : Item) : Bool :=
  match i.kind with
  | .combinator _ | .space => true
  | _ => false

end Item

abbrev Selector := List Item

/-! ## Printing -/

def AttributeTest.print (t : AttributeTest) : String :=
  let comparison := match t.comparison with
    | some (op, value) => op.text ++ stringText value
    | none => ""
  let rule := match t.caseRule with
    | some r => " " ++ r.letter
    | none => ""
  "[" ++ identText t.name ++ comparison ++ rule ++ "]"

def printPseudo (name : String) (argument : Option String) : String :=
  match argument with
  | some a => identText name ++ "(" ++ a ++ ")"
  | none => identText name

def ItemKind.print : ItemKind → String
  | type name => if name == "*" || name == "&" then name else identText name
  | id name => "#" ++ identText name
  | «class» name => "." ++ identText name
  | «attribute» t => t.print
  | pseudoClass name argument => ":" ++ printPseudo name argument
  | pseudoElement name argument => "::" ++ printPseudo name argument
  | combinator c => String.singleton c.symbol
  | space => " "

def Selector.print (s : Selector) : String := String.join (s.map (·.kind.print))

/-! ## Reading -/

def readAttributeTest (parts : List Part) : Option AttributeTest :=
  let compared (name : String) (op : Operator) : List Part → Option AttributeTest
    | .leaf (.ident v) _ :: rest | .leaf (.string v) _ :: rest =>
      match rest with
      | [] => some { name, comparison := some (op, v) }
      | [.leaf (.ident m) _] =>
        (CaseRule.ofName? m).map fun r => { name, comparison := some (op, v), caseRule := some r }
      | _ => none
    | _ => none
  match parts.filter (fun p => !p.isSkipped) with
  | [.leaf (.ident name) _] => some { name }
  | .leaf (.ident name) _ :: .leaf (.delim '=') _ :: rest => compared name .equals rest
  | .leaf (.ident name) _ :: .leaf (.matchOp c) _ :: rest =>
    (Operator.ofChar? c).bind fun op => compared name op rest
  | _ => none

def readPseudo (source : List Char) : Part → Option (String × Option String)
  | .leaf (.ident name) _ => some (name, none)
  | .group (.function name) _ _ inner =>
    some (name, some (String.ofList
      (Text.trimChars ((Text.slice? source inner.start inner.stop).getD []))))
  | _ => none

/-- The items read so far, in reverse, and one that follows them. -/
def follow (pending : Bool) (seen : List Item) (kind : ItemKind) : List Item :=
  match pending, seen with
  | true, last :: rest =>
    if last.isBoundary then { kind } :: last :: rest
    else { kind } :: { kind := .space } :: last :: rest
  | _, seen => { kind } :: seen

/-- The items of one selector; `seen` holds those before, in reverse, and `pending` says that white
space stands before the next. -/
def readItems (source : List Char) (pending : Bool) (seen : List Item) :
    List Part → Option (List Item)
  | [] =>
    match seen with
    | [] => none
    | last :: _ => if last.isBoundary then none else some seen.reverse
  | .leaf (.blank _) _ :: rest => readItems source true seen rest
  | .leaf .colon _ :: .leaf .colon _ :: p :: rest =>
    match readPseudo source p with
    | some (name, argument) =>
      readItems source false (follow pending seen (.pseudoElement name argument)) rest
    | none => none
  | .leaf .colon _ :: p :: rest =>
    match readPseudo source p with
    | some (name, argument) =>
      readItems source false (follow pending seen (.pseudoClass name argument)) rest
    | none => none
  | .leaf (.delim '.') _ :: .leaf (.ident name) _ :: rest =>
    readItems source false (follow pending seen (.«class» name)) rest
  | .leaf (.hash name true) _ :: rest =>
    readItems source false (follow pending seen (.id name)) rest
  | .leaf (.ident name) _ :: rest =>
    readItems source false (follow pending seen (.type name)) rest
  | .leaf (.delim c) _ :: rest =>
    match Combinator.ofChar? c with
    | some k => readItems source false ({ kind := .combinator k } :: seen) rest
    | none =>
      if c == '*' || c == '&' then
        readItems source false (follow pending seen (.type (String.singleton c))) rest
      else none
  | .group (.bracket .square) body _ _ :: rest =>
    match readAttributeTest body with
    | some t => readItems source false (follow pending seen (.«attribute» t)) rest
    | none => none
  | _ :: _ => none

inductive Fault where
  | syntaxError (line : Option String)
  | wrongSelector (text : String)
  | wrongGlobal
  | emptySelector
  | notSingleClass (selector : String)
  | unsupported (selector : String)
  | unmatched (selector : String)
  deriving DecidableEq, Repr

def Fault.diagnose : Fault → Diagnostic
  | syntaxError line => { code := .style, message := "CSS parse error", details := line }
  | wrongSelector text => { code := .style, message := "Wrong selector: '" ++ text ++ "'" }
  | wrongGlobal => { code := .style, message := "Wrong :global selector" }
  | emptySelector => { code := .style, message := "Empty selector" }
  | notSingleClass s =>
    { code := .style, message := "External selector must be a single class: '" ++ s ++ "'" }
  | unsupported s => { code := .style, message := "Unsupported selector: '" ++ s ++ "'" }
  | unmatched s =>
    { code := .style, message := "CSS error: '" ++ s ++ "'"
      details := some ("selector: '" ++ s ++ "'") }

def parseSelector (text : String) : Except Fault Selector :=
  let source := Text.trimChars text.toList
  match readItems source false [] (withoutComments (partsOf source)) with
  | some items => .ok items
  | none => .error (.wrongSelector (String.ofList source))

def parseSelectorList (text : String) : Except Fault (List Selector) :=
  let source := text.toList
  let pieces := splitParts Part.isComma (withoutComments (partsOf source))
  match pieces.mapM (readItems source false []) with
  | some list => .ok list
  | none => .error (.wrongSelector (Text.trim text))

end ReactiveMarkup.Style
