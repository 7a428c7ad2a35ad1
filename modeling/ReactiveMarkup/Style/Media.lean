import ReactiveMarkup.Style.Layout
import ReactiveMarkup.Style.Property

/-! # Conditions of at-rules -/

namespace ReactiveMarkup.Style

inductive Condition (α : Type) where
  | test (t : α)
  | negation (c : Condition α)
  | all (cs : List (Condition α))
  | any (cs : List (Condition α))

namespace Condition

variable {α : Type}

def bracketed (needed : Bool) (text : String) : String := if needed then "(" ++ text ++ ")" else text

mutual

def text (show_ : α → String) : Condition α → String
  | .test t => show_ t
  | .negation c => "not " ++ part show_ (fun c => match c with
      | .test _ => false
      | _ => true) c
  | .all cs => joined show_ " and " (fun c => match c with
      | .any _ | .negation _ => true
      | _ => false) cs
  | .any cs => joined show_ " or " (fun c => match c with
      | .all _ | .negation _ => true
      | _ => false) cs

def part (show_ : α → String) (needs : Condition α → Bool) (c : Condition α) : String :=
  bracketed (needs c) (text show_ c)

def joined (show_ : α → String) (word : String) (needs : Condition α → Bool) :
    List (Condition α) → String
  | [] => ""
  | [c] => part show_ needs c
  | c :: rest => part show_ needs c ++ word ++ joined show_ word needs rest

end

end Condition

def wordOf : Part → Option String
  | .leaf (.ident n) _ => some (toLower n)
  | _ => none

def joints? : List Part → Option (List Part × Option String)
  | [] => none
  | [p] => some ([p], none)
  | p :: w :: rest =>
    match wordOf w, joints? rest with
    | some word, some (ps, none) =>
      if word == "and" || word == "or" then some (p :: ps, some word) else none
    | some word, some (ps, some word') => if word == word' then some (p :: ps, some word) else none
    | _, _ => none

/-- Reads a condition: `operand` reads what stands between brackets, given how to read a condition
inside them. At most `fuel` levels. -/
def readCondition {α : Type} (operand : (List Part → Option (Condition α)) → Part →
    Option (Condition α)) : Nat → List Part → Option (Condition α)
  | 0, _ => none
  | fuel + 1, ps =>
    let one := operand (readCondition operand fuel)
    match components ps with
    | [w, p] =>
      if wordOf w == some "not" then (one p).map .negation else none
    | ps =>
      match joints? ps with
      | some ([p], none) => one p
      | some (ps, some "and") => (ps.mapM one).map .all
      | some (ps, some "or") => (ps.mapM one).map .any
      | _ => none

/-! ## Media queries -/

inductive Comparison where
  | equal
  | less
  | lessEqual
  | greater
  | greaterEqual
  deriving DecidableEq, Repr

namespace Comparison

def symbol : Comparison → String
  | equal => "="
  | less => "<"
  | lessEqual => "<="
  | greater => ">"
  | greaterEqual => ">="

def flip : Comparison → Comparison
  | equal => equal
  | less => greater
  | lessEqual => greaterEqual
  | greater => less
  | greaterEqual => lessEqual

end Comparison

inductive FeatureValue where
  | text (s : String)
  | ratio (a b : String)
  deriving DecidableEq, Repr

inductive Feature where
  | plain (name : String)
  | equals (name : String) (v : FeatureValue)
  | range (name : String) (c : Comparison) (v : FeatureValue)
  | interval (low : FeatureValue) (c : Comparison) (name : String) (c' : Comparison)
      (high : FeatureValue)
  deriving DecidableEq, Repr

def FeatureValue.print (l : Layout) : FeatureValue → String
  | text s => s
  | ratio a b => a ++ l.delim "/" true ++ b

def Feature.print (l : Layout) : Feature → String
  | plain n => "(" ++ n ++ ")"
  | equals n v => "(" ++ n ++ l.delim ":" false ++ v.print l ++ ")"
  | range n c v => "(" ++ n ++ l.delim c.symbol true ++ v.print l ++ ")"
  | interval a c n c' b =>
    "(" ++ a.print l ++ l.delim c.symbol true ++ n ++ l.delim c'.symbol true ++ b.print l ++ ")"

def featureValue? : List Part → Option FeatureValue
  | [p] =>
    match p with
    | .leaf (.ident n) _ => some (.text (identText n))
    | .leaf (.number n) _ => some (.text (numberText n.value))
    | .leaf (.dimension n u) _ =>
      match lengthUnit? u, toLower u with
      | some _, _ => (length? p).map .text
      | none, "dppx" | none, "x" => some (.text (numberText n.value ++ "x"))
      | none, "dpi" | none, "dpcm" => some (.text (dimensionText n.value (toLower u)))
      | none, _ => none
    | .group (.function _) _ _ _ => (denseText [p]).toOption.map .text
    | _ => none
  | [.leaf (.number a) _, .leaf (.delim '/') _, .leaf (.number b) _] =>
    some (.ratio (numberText a.value) (numberText b.value))
  | _ => none

def boundOf (name : String) : String × Option Comparison :=
  match name.toList with
  | 'm' :: 'i' :: 'n' :: '-' :: rest => (String.ofList rest, some .greaterEqual)
  | 'm' :: 'a' :: 'x' :: '-' :: rest => (String.ofList rest, some .lessEqual)
  | _ => (name, none)

def readComparison? : List Part → Option (Comparison × List Part)
  | .leaf (.delim '<') _ :: .leaf (.delim '=') _ :: rest => some (.lessEqual, rest)
  | .leaf (.delim '>') _ :: .leaf (.delim '=') _ :: rest => some (.greaterEqual, rest)
  | .leaf (.delim '<') _ :: rest => some (.less, rest)
  | .leaf (.delim '>') _ :: rest => some (.greater, rest)
  | .leaf (.delim '=') _ :: rest => some (.equal, rest)
  | _ => none

def isComparator : Part → Bool
  | .leaf (.delim c) _ => c == '<' || c == '>' || c == '='
  | _ => false

def feature? (body : List Part) : Option Feature :=
  match components body with
  | [.leaf (.ident n) _] => some (.plain (toLower n))
  | .leaf (.ident n) _ :: .leaf .colon _ :: rest =>
    (featureValue? rest).map fun v =>
      match boundOf (toLower n) with
      | (name, some c) => .range name c v
      | (name, none) => .equals name v
  | ps =>
    let (front, rest) := ps.span fun p => !isComparator p
    match readComparison? rest with
    | none => none
    | some (c, rest) =>
      match front with
      | [.leaf (.ident n) _] => (featureValue? rest).map fun v => .range (toLower n) c v
      | _ =>
        match featureValue? front, rest with
        | some v, [.leaf (.ident n) _] => some (.range (toLower n) c.flip v)
        | some v, .leaf (.ident n) _ :: rest =>
          match readComparison? rest with
          | some (c', rest) => (featureValue? rest).map fun v' => .interval v c (toLower n) c' v'
          | none => none
        | _, _ => none

def mediaOperand (nested : List Part → Option (Condition Feature)) :
    Part → Option (Condition Feature)
  | .group (.bracket .round) body _ _ =>
    match nested body with
    | some c => some c
    | none => (feature? body).map .test
  | _ => none

structure MediaQuery where
  qualifier : Option String
  medium : Option String
  condition : Option (Condition Feature)

def MediaQuery.text (l : Layout) (q : MediaQuery) : String :=
  let qualifier := match q.qualifier with
    | some w => w ++ " "
    | none => ""
  let medium := match q.medium with
    | some m => m
    | none => if q.qualifier.isSome || q.condition.isNone then "all" else ""
  match q.condition with
  | none => qualifier ++ medium
  | some c =>
    if q.medium.isNone && q.qualifier.isNone then c.text (Feature.print l)
    else
      let needs := match c with
        | .any _ => true
        | _ => false
      qualifier ++ medium ++ " and " ++ Condition.bracketed needs (c.text (Feature.print l))

def readMediaQuery? (ps : List Part) : Option MediaQuery :=
  let condition (rest : List Part) := readCondition mediaOperand (depthOf rest + 2) rest
  let typed (qualifier : Option String) : List Part → Option MediaQuery
    | .leaf (.ident n) _ :: rest =>
      let low := toLower n
      if ["not", "only", "and", "or", "layer"].contains low then none
      else
        let medium := if low == "all" then none
          else some (if low == "print" || low == "screen" then low else n)
        match rest with
        | [] => some { qualifier, medium, condition := none }
        | w :: rest =>
          if wordOf w == some "and" then
            (condition rest).map fun c => { qualifier, medium, condition := some c }
          else none
    | _ => none
  match components ps with
  | [] => none
  | w :: rest =>
    match wordOf w with
    | some "only" => typed (some "only") rest
    | some "not" =>
      match typed (some "not") rest with
      | some q => some q
      | none => (condition (w :: rest)).map fun c =>
        { qualifier := none, medium := none, condition := some c }
    | some _ => typed none (w :: rest)
    | none => (condition (w :: rest)).map fun c =>
      { qualifier := none, medium := none, condition := some c }

def readMedia (ps : List Part) : Except Nat (List MediaQuery) :=
  if (components ps).isEmpty then .ok []
  else
    (splitParts Part.isComma ps).mapM fun piece =>
      match readMediaQuery? piece with
      | some q => .ok q
      | none => .error ((piece.head?.orElse fun _ => ps.head?).elim 0 (·.span.start))

def mediaText (l : Layout) (qs : List MediaQuery) : String :=
  (l.delim "," false).intercalate (qs.map (·.text l))

/-! ## Feature tests -/

inductive Support where
  | declaration (name value : String)
  | selector (argument : String)
  | unknown (text : String)
  deriving DecidableEq, Repr

def Support.print (l : Layout) : Support → String
  | declaration n v => "(" ++ n ++ l.delim ":" false ++ v ++ ")"
  | selector a => "selector(" ++ a ++ ")"
  | unknown t => t

def supportOperand (slice : Text.Span → String) (nested : List Part → Option (Condition Support)) :
    Part → Option (Condition Support)
  | .group (.function name) _ span inner =>
    if toLower name == "selector" then some (.test (.selector (slice inner)))
    else some (.test (.unknown (slice span)))
  | .group (.bracket .round) body span inner =>
    match nested body with
    | some c => some c
    | none =>
      match skipBlanks body with
      | .leaf (.ident n) _ :: rest =>
        match skipBlanks rest with
        | .leaf .colon _ :: value =>
          match skipBlanks value with
          | [] => some (.test (.unknown (slice span)))
          | v :: _ =>
            some (.test (.declaration (identText n) (slice ⟨v.span.start, inner.stop⟩)))
        | _ => some (.test (.unknown (slice span)))
      | _ => some (.test (.unknown (slice span)))
  | _ => none

def readSupports (slice : Text.Span → String) (ps : List Part) :
    Except Nat (Condition Support) :=
  match readCondition (supportOperand slice) (depthOf ps + 2) ps with
  | some c => .ok c
  | none => .error (ps.head?.elim 0 (·.span.start))

end ReactiveMarkup.Style
