import ReactiveMarkup.Style.Layout
import ReactiveMarkup.Style.Selector
import ReactiveMarkup.Style.Value

/-! # Selectors of a rule

The grammar of the selectors that may open a rule, and their normal text: a universal selector is
dropped beside other tests, known pseudo names are in lower case, four pseudo elements have one
colon, and a rule within a rule names its parent.
-/

namespace ReactiveMarkup.Style

inductive Matching where
  | any
  | anyUnweighted
  | none_
  | related
  | vendorAny (name : String)
  deriving DecidableEq, Repr

def Matching.name : Matching → String
  | any => "is"
  | anyUnweighted => "where"
  | none_ => "not"
  | related => "has"
  | vendorAny n => n

inductive Term where
  | link (r : Option Combinator)
  | parent
  | universal
  | type (name : String)
  | qualified (space : String) (name : Option String)
  | id (name : String)
  | «class» (name : String)
  | «attribute» (space : Option String) (test : AttributeTest)
  | pseudo (name : String)
  | step (name : String) (a b : Int) (within : List (List Term))
  | matching (m : Matching) (list : List (List Term))
  | host (name : String) (list : List (List Term))
  | words (name : String) (arguments : List String)
  | custom (name : String) (argument : String)
  | element (name : String)
  | customElement (name : String) (argument : String)
  | slotted (list : List (List Term))
  | shadowPart (names : List String)

namespace Term

def isLink : Term → Bool
  | link _ => true
  | _ => false

def isType : Term → Bool
  | universal | type _ | qualified .. => true
  | _ => false

def isUniversal : Term → Bool
  | universal => true
  | _ => false

end Term

/-! ## Printing -/

def linkText (l : Layout) : Option Combinator → String
  | none => " "
  | some c => l.delim (String.singleton c.symbol) true

/-- `an+b`, with a word for the odd positions. -/
def stepText (a b : Int) : String :=
  let sign (n : Int) : String := if n < 0 then toString n else "+" ++ toString n
  if a == 0 then toString b
  else if a == 2 && b == 1 then "odd"
  else
    let front := if a == 1 then "n" else if a == -1 then "-n" else toString a ++ "n"
    if b == 0 then front else front ++ sign b

def attributeText (l : Layout) (space : Option String) (t : AttributeTest) : String :=
  let value (v : String) : String :=
    let quoted := stringText v
    match l with
    | .spaced => quoted
    | .dense =>
      let bare := identText v
      if 0 < bare.utf8ByteSize && bare.utf8ByteSize < quoted.utf8ByteSize then bare else quoted
  let comparison := match t.comparison with
    | some (op, v) => op.text ++ value v
    | none => ""
  let rule := match t.caseRule with
    | some r => " " ++ r.letter
    | none => ""
  let qualifier := match space with
    | some s => s ++ "|"
    | none => ""
  "[" ++ qualifier ++ identText t.name ++ comparison ++ rule ++ "]"

def singleColon : List String := ["before", "after", "first-line", "first-letter"]

mutual

def Term.text (l : Layout) : Term → String
  | .link r => linkText l r
  | .parent => "&"
  | .universal => "*"
  | .type n => identText n
  | .qualified space name => space ++ "|" ++ (name.map identText).getD "*"
  | .id n => "#" ++ identText n
  | .«class» n => "." ++ identText n
  | .«attribute» space t => attributeText l space t
  | .pseudo n => ":" ++ n
  | .step n a b within =>
    let tail := match within with
      | [] => ""
      | list => " of " ++ listText l list
    ":" ++ n ++ "(" ++ stepText a b ++ tail ++ ")"
  | .matching m list =>
    match m, list with
    | .any, [s] =>
      if s.any (fun t => t.isLink || t.isType) then ":is(" ++ listText l [s] ++ ")"
      else rowText l s
    | m, list => ":" ++ m.name ++ "(" ++ listText l list ++ ")"
  | .host n list => ":" ++ n ++ "(" ++ listText l list ++ ")"
  | .words n args => ":" ++ n ++ "(" ++ (l.delim "," false).intercalate args ++ ")"
  | .custom n arg => ":" ++ n ++ "(" ++ arg ++ ")"
  | .element n => (if singleColon.contains n then ":" else "::") ++ n
  | .customElement n arg => "::" ++ n ++ "(" ++ arg ++ ")"
  | .slotted list => "::slotted(" ++ listText l list ++ ")"
  | .shadowPart names => "::part(" ++ " ".intercalate names ++ ")"

def rowText (l : Layout) : List Term → String
  | [] => ""
  | t :: rest => t.text l ++ rowText l rest

def listText (l : Layout) : List (List Term) → String
  | [] => ""
  | [s] => rowText l s
  | s :: rest => rowText l s ++ l.delim "," false ++ listText l rest

end

/-! ## Reading

Failures are offsets into the source. -/

variable (source : List Char)

def dropUniversal (compound : List Term) : List Term :=
  match compound with
  | [.universal] | [.parent, .universal] => compound
  | terms => terms.filter fun t => !t.isUniversal

def normalize (row : List Term) : List Term :=
  let (current, done) := row.foldl (fun (acc : List Term × List Term) t =>
    if t.isLink then ([], acc.2 ++ dropUniversal acc.1 ++ [t]) else (acc.1 ++ [t], acc.2)) ([], [])
  done ++ dropUniversal current

def textBetween (s : Text.Span) : List Char :=
  (Text.slice? source s.start s.stop).getD []

def startOf (ps : List Part) (stop : Nat) : Nat := (ps.head?.map (·.span.start)).getD stop

def signedNat? (cs : List Char) : Option Int :=
  let digits (ds : List Char) : Option Nat :=
    if ds.isEmpty || !ds.all Char.isDigit then none else some (digitsValue ds)
  match cs with
  | '-' :: ds => (digits ds).map fun n => -(n : Int)
  | '+' :: ds => (digits ds).map fun n => (n : Int)
  | ds => (digits ds).map fun n => (n : Int)

def readStep? (text : List Char) : Option (Int × Int) :=
  let cs := (Text.trimChars text).map Char.toLower
  match String.ofList cs with
  | "even" => some (2, 0)
  | "odd" => some (2, 1)
  | _ =>
    match cs.span (· != 'n') with
    | (number, []) => (signedNat? number).map fun b => (0, b)
    | (front, _ :: back) =>
      let a := match front with
        | [] | ['+'] => some 1
        | ['-'] => some (-1)
        | cs => signedNat? cs
      let b := match back.filter (fun c => !isSpace c) with
        | [] => some 0
        | '+' :: ds => signedNat? ('+' :: ds)
        | '-' :: ds => signedNat? ('-' :: ds)
        | _ => none
      a.bind fun a => b.map fun b => (a, b)

def stepNames : List String :=
  ["nth-child", "nth-last-child", "nth-of-type", "nth-last-of-type", "nth-col", "nth-last-col"]

def knownPseudos : List String :=
  ["hover", "active", "focus", "focus-visible", "focus-within", "current", "past", "future",
    "playing", "paused", "seeking", "buffering", "stalled", "muted", "volume-locked", "fullscreen",
    "open", "closed", "modal", "picture-in-picture", "popover-open", "defined", "any-link", "link",
    "local-link", "target", "target-within", "visited", "enabled", "disabled", "read-only",
    "read-write", "placeholder-shown", "default", "checked", "indeterminate", "blank", "valid",
    "invalid", "in-range", "out-of-range", "required", "optional", "user-valid", "user-invalid",
    "autofill", "root", "empty", "scope", "host", "first-child", "last-child", "only-child",
    "first-of-type", "last-of-type", "only-of-type"]

def userActions : List String := ["active", "hover", "focus", "focus-within", "focus-visible"]

def knownElements : List String :=
  ["after", "before", "first-line", "first-letter", "details-content", "target-text",
    "search-text", "cue", "cue-region", "selection", "-moz-selection", "placeholder",
    "-webkit-input-placeholder", "-moz-placeholder", "-ms-input-placeholder", "marker", "backdrop",
    "-webkit-backdrop", "file-selector-button", "-webkit-file-upload-button", "-ms-browse",
    "grammar-error", "spelling-error", "-webkit-scrollbar", "-webkit-scrollbar-button",
    "-webkit-scrollbar-track", "-webkit-scrollbar-track-piece", "-webkit-scrollbar-thumb",
    "-webkit-scrollbar-corner", "-webkit-resizer", "view-transition"]

def knownName (known : List String) (name : String) : String :=
  if known.contains (toLower name) then toLower name else name

/-- What has been read of a selector affects what may follow. -/
structure Seen where
  afterElement : Bool := false
  afterPart : Bool := false
  inner : Bool := false

def Seen.afterPseudo (s : Seen) : Bool := s.afterElement || s.afterPart

def wordList? (ps : List Part) : Option (List String) :=
  (splitParts Part.isComma ps).mapM fun piece =>
    match trimParts piece with
    | [.leaf (.ident n) _] => some (identText n)
    | [.leaf (.string s) _] => some (identText s)
    | _ => none

def readTest? (body : List Part) : Option (Option String × AttributeTest) :=
  match body.filter (fun p => !p.isSkipped) with
  | .leaf (.ident n) s :: .leaf (.delim '|') _ :: rest =>
    match rest with
    | .leaf (.ident _) _ :: _ => (readAttributeTest rest).map fun t => (some (identText n), t)
    | _ => (readAttributeTest (.leaf (.ident n) s :: rest)).map fun t => (none, t)
  | .leaf (.delim '*') _ :: .leaf (.delim '|') _ :: rest =>
    (readAttributeTest rest).map fun t => (some "*", t)
  | .leaf (.delim '|') _ :: rest => (readAttributeTest rest).map fun t => (none, t)
  | ps => (readAttributeTest ps).map fun t => (none, t)

def readType : List Part → Except Nat (List Term × List Part)
  | .leaf (.ident n) _ :: .leaf (.delim '|') _ :: .leaf (.ident m) _ :: rest =>
    .ok ([.qualified (identText n) (some m)], rest)
  | .leaf (.ident n) _ :: .leaf (.delim '|') _ :: .leaf (.delim '*') _ :: rest =>
    .ok ([.qualified (identText n) none], rest)
  | .leaf (.ident _) _ :: .leaf (.delim '|') s :: _ => .error s.start
  | .leaf (.ident n) _ :: rest => .ok ([.type n], rest)
  | .leaf (.delim '*') _ :: .leaf (.delim '|') _ :: .leaf (.ident m) _ :: rest =>
    .ok ([.type m], rest)
  | .leaf (.delim '*') _ :: .leaf (.delim '|') _ :: .leaf (.delim '*') _ :: rest =>
    .ok ([.universal], rest)
  | .leaf (.delim '*') _ :: .leaf (.delim '|') s :: _ => .error s.start
  | .leaf (.delim '*') _ :: rest => .ok ([.universal], rest)
  | .leaf (.delim '|') _ :: .leaf (.ident m) _ :: rest => .ok ([.qualified "" (some m)], rest)
  | .leaf (.delim '|') _ :: .leaf (.delim '*') _ :: rest => .ok ([.qualified "" none], rest)
  | ps => .ok ([], ps)

def isOf : Part → Bool
  | .leaf (.ident n) _ => toLower n == "of"
  | _ => false

structure Inner where
  list : List Part → Except Nat (List (List Term))
  forgiving : List Part → Except Nat (List (List Term))
  related : List Part → Except Nat (List (List Term))

variable (inner : Inner) (stop : Nat) (ps : List Part)

def readFunctional (name : String) (body : List Part) (span : Text.Span) : Except Nat Term :=
  let low := toLower name
  if stepNames.contains low then
    match body.span fun p => !isOf p with
    | (_, []) =>
      match readStep? (textBetween source span) with
      | some (a, b) => .ok (.step low a b [])
      | none => .error span.start
    | (_, keyword :: rest) =>
      match readStep? (textBetween source ⟨span.start, keyword.span.start⟩) with
      | some (a, b) => (inner.list rest).map fun list => .step low a b list
      | none => .error span.start
  else
    match low with
    | "is" => (inner.forgiving body).map (.matching .any)
    | "where" => (inner.forgiving body).map (.matching .anyUnweighted)
    | "not" => (inner.list body).map (.matching .none_)
    | "has" => (inner.related body).map (.matching .related)
    | "-webkit-any" | "-moz-any" => (inner.forgiving body).map (.matching (.vendorAny low))
    | "host" => (inner.list body).map (.host low)
    | "lang" | "dir" =>
      match wordList? body with
      | some ws => .ok (.words low ws)
      | none => .error span.start
    | _ => (verbatimText body).map (.custom name)

def readFunctionalElement (name : String) (body : List Part) (span : Text.Span) : Except Nat Term :=
  match toLower name with
  | "part" =>
    match (components body).mapM fun p => match p with
        | .leaf (.ident n) _ => some (identText n)
        | _ => none with
    | some (n :: ns) => .ok (.shadowPart (n :: ns))
    | _ => .error span.start
  | "slotted" => (inner.list body).map .slotted
  | "cue" | "cue-region" =>
    (inner.list body).map fun list => .customElement (toLower name) (listText .spaced list)
  | _ => (verbatimText body).map (.customElement name)
where
  components (ps : List Part) : List Part := ps.filter fun p => !p.isSkipped

def readPseudoTerm (seen : Seen) (double : Bool) :
    Part → Except Nat (Term × Seen)
  | .leaf (.ident name) s =>
    let low := toLower name
    if double || singleColon.contains low then
      if seen.afterElement || seen.inner then .error s.start
      else .ok (.element (knownName knownElements name), { seen with afterElement := true })
    else if seen.afterElement && !userActions.contains low then .error s.start
    else .ok (.pseudo (knownName knownPseudos name), seen)
  | .group (.function name) body s span =>
    if double then
      if seen.afterElement || seen.inner then .error s.start
      else
        (readFunctionalElement inner name body span).map fun t =>
          match t with
          | .shadowPart _ => (t, { seen with afterPart := true })
          | _ => (t, { seen with afterElement := true })
    else if seen.afterElement then .error s.start
    else (readFunctional source inner name body span).map fun t => (t, seen)
  | p => .error p.span.start

def addTerm (t : Term) (r : Except Nat (List Term × Seen × List Part)) :
    Except Nat (List Term × Seen × List Part) :=
  r.map fun (ts, seen, rest) => (t :: ts, seen, rest)

def readTests (source : List Char) (inner : Inner) (seen : Seen) :
    List Part → Except Nat (List Term × Seen × List Part)
  | .leaf (.hash n true) s :: rest =>
    if seen.afterPseudo then .error s.start else addTerm (.id n) (readTests source inner seen rest)
  | .leaf (.delim '.') s :: rest =>
    match rest with
    | .leaf (.ident n) _ :: rest =>
      if seen.afterPseudo then .error s.start
      else addTerm (.«class» n) (readTests source inner seen rest)
    | _ => .error s.stop
  | .group (.bracket .square) body s _ :: rest =>
    match readTest? body with
    | some (space, t) =>
      if seen.afterPseudo then .error s.start
      else addTerm (.«attribute» space t) (readTests source inner seen rest)
    | none => .error s.start
  | .leaf .colon _ :: .leaf .colon _ :: p :: rest =>
    match readPseudoTerm source inner seen true p with
    | .ok (t, seen) => addTerm t (readTests source inner seen rest)
    | .error e => .error e
  | .leaf .colon _ :: p :: rest =>
    match readPseudoTerm source inner seen false p with
    | .ok (t, seen) => addTerm t (readTests source inner seen rest)
    | .error e => .error e
  | .leaf .colon s :: [] => .error s.stop
  | .leaf (.delim '&') _ :: rest => addTerm .parent (readTests source inner seen rest)
  | ps => .ok ([], seen, ps)

def readCompound (source : List Char) (inner : Inner) (seen : Seen) (ps : List Part) :
    Except Nat (List Term × Seen × List Part) :=
  let ps := skipBlanks ps
  let (nesting, ps) := match ps with
    | .leaf (.delim '&') _ :: rest => ([Term.parent], rest)
    | ps => ([], ps)
  match readType ps with
  | .error e => .error e
  | .ok (name, ps) =>
    match readTests source inner seen ps with
    | .error e => .error e
    | .ok (tests, seen, rest) => .ok (nesting ++ name ++ tests, seen, rest)

def readLink : Option (Option Combinator × List Part) :=
  match skipBlanks ps with
  | [] => none
  | .leaf (.delim c) s :: rest =>
    match Combinator.ofChar? c with
    | some k => some (some k, rest)
    | none => if ps.head?.any Part.isBlank then some (none, .leaf (.delim c) s :: rest) else none
  | rest => if ps.head?.any Part.isBlank then some (none, rest) else none

/-- Compounds and links up to the end of the parts; at most `fuel` compounds. -/
def readRow (source : List Char) (inner : Inner) (stop : Nat) (seen : Seen) :
    Nat → List Part → Except Nat (List Term)
  | 0, _ => .error stop
  | fuel + 1, ps => do
    let (compound, seen, rest) ← readCompound source inner seen ps
    if compound.isEmpty then .error (startOf rest stop)
    else if seen.afterPseudo then
      if (skipBlanks rest).isEmpty then return compound else .error (startOf rest stop)
    else
      match readLink rest with
      | some (link, rest) =>
        return compound ++ .link link :: (← readRow source inner stop seen fuel rest)
      | none =>
        if (skipBlanks rest).isEmpty then return compound else .error (startOf rest stop)

def hasParent (ts : List Term) : Bool :=
  ts.any fun t => match t with
    | .parent => true
    | .matching _ list => list.any fun s => s.any fun t => match t with
      | .parent => true
      | _ => false
    | _ => false

def readRelative (source : List Char) (inner : Inner) (stop : Nat) (seen : Seen)
    (lead : List Term) (ps : List Part) : Except Nat (List Term × Bool) :=
  match skipBlanks ps with
  | .leaf (.delim c) s :: rest =>
    match Combinator.ofChar? c with
    | some k =>
      (readRow source inner stop seen (ps.length + 1) rest).map fun row =>
        (lead ++ .link (some k) :: row, true)
    | none =>
      (readRow source inner stop seen (ps.length + 1) (.leaf (.delim c) s :: rest)).map (·, false)
  | rest => (readRow source inner stop seen (ps.length + 1) rest).map (·, false)

def readCommaList (one : List Part → Except Nat (List Term)) (ps : List Part) :
    Except Nat (List (List Term)) :=
  (splitParts Part.isComma (withoutComments ps)).mapM fun piece => (one piece).map normalize

def innerAt (source : List Char) (stop : Nat) : Nat → Inner
  | 0 => { list := fun _ => .error stop, forgiving := fun _ => .ok [], related := fun _ => .error stop }
  | depth + 1 =>
    let below := innerAt source stop depth
    let one (ps : List Part) := readRow source below stop { inner := true } (ps.length + 1) ps
    { list := readCommaList one
      forgiving := fun ps =>
        .ok ((splitParts Part.isComma (withoutComments ps)).filterMap fun piece =>
          ((one piece).map normalize).toOption)
      related := readCommaList fun ps =>
        (readRelative source below stop { inner := true } [] ps).map (·.1) }

def readSelectors : Except Nat (List (List Term)) :=
  let inner := innerAt source stop (depthOf ps)
  readCommaList (fun piece => readRow source inner stop {} (piece.length + 1) piece) ps

/-- The selectors of a rule within a rule: one that does not name its parent is below it. -/
def readNestedSelectors : Except Nat (List (List Term)) :=
  let inner := innerAt source stop (depthOf ps)
  readCommaList (fun piece =>
    (readRelative source inner stop {} [.parent] piece).map fun (row, linked) =>
      if linked || hasParent row then row else .parent :: .link none :: row) ps

end ReactiveMarkup.Style
