import ReactiveMarkup.Compile.Options
import ReactiveMarkup.Digest.Token
import ReactiveMarkup.Markup.Walk
import ReactiveMarkup.Style.Match
import ReactiveMarkup.Style.Sheet

/-! # Scoped styles

The styles of a component apply to its own elements only. Every selector has a clean form without
global and pseudo items. All selectors with one clean form share a scope token: a private one for a
lone class, the token of the component otherwise. The token is added to the selector as a class,
and to the classes of every element that the clean form can match.
-/

namespace ReactiveMarkup.Style

open Markup (Root RawBlock)

/-- A stream of tokens, of which `drawn` have been taken. -/
structure TokenSource where
  stream : Nat → String
  drawn : Nat := 0

namespace TokenSource

def next (src : TokenSource) : String × TokenSource :=
  (src.stream src.drawn, { src with drawn := src.drawn + 1 })

def digest (seed : String) : TokenSource where
  stream n := Digest.token seed (UInt32.ofNat (n + 1))

def numbered (stem : String) (drawn : Nat) : TokenSource where
  stream n := stem ++ toString n
  drawn := drawn

def constant (token : String) : TokenSource where
  stream _ := token

end TokenSource

/-- The public name of a class that an enclosing component may set. -/
inductive Alias where
  | passthrough
  | token (t : String)
  deriving DecidableEq, Repr

def Alias.token? : Alias → Option String
  | passthrough => none
  | token t => some t

/-- The selectors that share one clean form, which is printed as `text`. `origin` is the first of
them. -/
structure Bucket where
  text : String
  clean : Selector
  isSimple : Bool
  «local» : Option String := none
  «external» : Option Alias := none
  origin : String
  deriving DecidableEq, Repr

def Bucket.className? (b : Bucket) : Option String :=
  match b.clean with
  | { kind := .«class» name, .. } :: _ => some name
  | _ => none

def isSingleClass : Selector → Bool
  | [] => false
  | first :: rest =>
    (match first.kind with
     | .«class» _ => true
     | _ => false) &&
      rest.all fun i => match i.kind with
        | .«attribute» _ => true
        | _ => false

/-- `index` has the place of each bucket under its text. -/
structure Scope where
  id : String
  main : Option String := none
  hasExternal : Bool := false
  sheets : List (List Node) := []
  buckets : List Bucket := []
  index : List (String × Nat) := []
  tokens : TokenSource

def Scope.bucket? (s : Scope) (text : String) : Option (Nat × Bucket) := do
  let k ← s.index.lookup text
  return (k, ← s.buckets[k]?)

structure BlockFlags where
  «external» : Bool := false
  isGlobal : Bool := false
  deriving DecidableEq, Repr

/-! ## Selectors -/

/-- Replaces `:global(…)` by the items between its brackets, marked as global. -/
def openGlobals : Selector → Except Fault Selector
  | [] => .ok []
  | i :: rest => do
    let here ← match i.kind with
      | .pseudoClass "global" (some argument) =>
        (parseSelector argument).map fun s => s.map fun j => { j with isGlobal := true }
      | .pseudoClass "global" none => .error .wrongGlobal
      | _ => .ok [i]
    return here ++ (← openGlobals rest)

def beginsCompound (prev : Option Item) : Bool := prev.all Item.isBoundary

/-- The clean form, with spaces at its ends: a pseudo item that begins a compound leaves `*`. -/
def cleanItems (prev : Option Item) : Selector → Selector
  | [] => []
  | i :: rest =>
    let tail := cleanItems (some i) rest
    if i.isGlobal then tail
    else if i.isPseudo then
      if beginsCompound prev then { kind := .type "*" } :: tail else tail
    else i :: tail

def isSpaceItem (i : Item) : Bool := i.kind == .space

def cleanForm (s : Selector) : Selector :=
  (((cleanItems none s).dropWhile isSpaceItem).reverse.dropWhile isSpaceItem).reverse

/-- Adds the token as a class behind tests that no other test follows at once, and before a pseudo
item that begins a compound. Items inside `:global(…)` get none. -/
def mark (token : String) (prev : Option Item) : Selector → Selector
  | [] => []
  | i :: rest =>
    let tail := mark token (some i) rest
    let tokenItem : Item := { kind := .«class» token }
    if i.isGlobal || i.isBoundary then i :: tail
    else if i.isPseudo then
      if beginsCompound prev then tokenItem :: i :: tail else i :: tail
    else if rest.head?.all (fun r => r.isPseudo || r.isBoundary) then i :: tokenItem :: tail
    else i :: tail

/-! ## Buckets -/

abbrev Scoping := StateT Scope (Except Fault)

def freshToken : Scoping String := do
  let s ← get
  let (t, tokens) := s.tokens.next
  set { s with tokens }
  return t

/-- The bucket of a clean form with its place. -/
def bucketOf (clean origin : Selector) : Scoping (Nat × Bucket) := do
  let s ← get
  let text := clean.print
  match s.bucket? text with
  | some found => return found
  | none =>
    let b : Bucket := { text, clean, isSimple := isSingleClass clean, origin := origin.print }
    let k := s.buckets.length
    set { s with buckets := s.buckets ++ [b], index := (text, k) :: s.index }
    return (k, b)

def putBucket (k : Nat) (b : Bucket) : Scoping Unit :=
  modify fun s => { s with buckets := s.buckets.set k b }

/-- The token of a bucket under an external block; a class that is declared by an empty rule has
none. -/
def externalToken (k : Nat) (b : Bucket) (emptyBlock : Bool) : Scoping (Option String) := do
  if !b.isSimple then throw (.notSingleClass b.origin)
  else
    match b.external with
    | some a => return a.token?
    | none =>
      let a ← if emptyBlock then pure Alias.passthrough else Alias.token <$> freshToken
      putBucket k { b with «external» := some a }
      return a.token?

def localToken (k : Nat) (b : Bucket) : Scoping String := do
  match b.local with
  | some t => return t
  | none =>
    let t ← if b.isSimple then freshToken else pure (← get).id
    putBucket k { b with «local» := some t }
    return t

def scopeSelector (flags : BlockFlags) (emptyBlock : Bool) (selector : Selector) :
    Scoping Selector := do
  let origin ← openGlobals selector
  let clean := cleanForm origin
  if origin.isEmpty then throw .emptySelector
  else if clean.isEmpty || flags.isGlobal then return origin
  else
    let (k, bucket) ← bucketOf clean origin
    let token ← if flags.external then externalToken k bucket emptyBlock
      else some <$> localToken k bucket
    return match token with
      | some t => mark t none origin
      | none => origin

/-! ## Sheets -/

def isAnimationName (word : String) : Bool :=
  let chars := match word.toList with
    | '-' :: rest => rest
    | cs => cs
  match chars with
  | [] => false
  | c :: rest =>
    (c.isAlpha || c == '_') && rest.all fun c => c.isAlphanum || c == '_' || c == '-'

/-- Adds the component's token to the name of an animation, which is the first word of the value
or else the last. -/
def renameAnimation (id : String) (d : Declaration) : Declaration :=
  if d.property == "animation" || d.property == "animation-name" then
    let own (w : String) : String := w ++ "-" ++ id
    match Text.words d.value with
    | [] => d
    | first :: rest =>
      if isAnimationName first then { d with value := " ".intercalate (own first :: rest) }
      else
        match rest.reverse with
        | last :: middle =>
          if isAnimationName last then
            { d with value := " ".intercalate (first :: (own last :: middle).reverse) }
          else d
        | [] => d
  else d

def suffixFirstWord (id text : String) : String :=
  match text.toList.span fun c => !Text.isBlank c with
  | ([], []) => text
  | (first, []) => String.ofList first ++ "-" ++ id
  | (first, _ :: rest) => String.ofList first ++ "-" ++ id ++ " " ++ String.ofList rest

mutual

def scopeNode (flags : BlockFlags) (inKeyframes : Bool) : Node → Scoping Node
  | .declaration d => do return .declaration (renameAnimation (← get).id d)
  | .raw text => return .raw text
  | .at name lead block => do
    let s ← get
    let frames := isKeyframes name
    let lead := if frames then suffixFirstWord s.id lead else lead
    match block with
    | some nodes => return .at name lead (some (← scopeNodes flags frames nodes))
    | none => return .at name lead none
  | .rule lead block => do
    let lead ← match lead with
      | .selectors list =>
        if inKeyframes then pure lead
        else RulePrelude.selectors <$> list.mapM (scopeSelector flags block.isEmpty)
      | .keyframe text => pure (.keyframe text)
    return .rule lead (← scopeNodes flags false block)

def scopeNodes (flags : BlockFlags) (inKeyframes : Bool) : List Node → Scoping (List Node)
  | [] => return []
  | n :: rest => do
    let first ← scopeNode flags inKeyframes n
    return first :: (← scopeNodes flags inKeyframes rest)

end

def blockFlags (b : RawBlock) : BlockFlags where
  «external» := b.hasAttribute "external"
  isGlobal := b.hasAttribute "global"

/-- Scopes a style block, whose content is read by `parse`. -/
def addBlock (parse : String → Except Fault (List Node)) (b : RawBlock) : Scoping Unit := do
  let mains := b.attributes.filter (·.name == "main")
  modify fun s => { s with
    hasExternal := s.hasExternal || b.hasAttribute "external"
    main := match mains.getLast? with
      | some a => a.value
      | none => s.main }
  let nodes ← parse b.content
  let sheet ← scopeNodes (blockFlags b) false nodes
  modify fun s => { s with sheets := s.sheets ++ [sheet] }

/-- The scope of a component's style blocks; none when it has no block. Without a source of tokens
they are derived from the component's name and its styles. -/
def scopeWith (parse : String → Except Fault (List Node)) (blocks : List RawBlock)
    (o : Compile.Options) (source : Option TokenSource) : Except Fault (Option Scope) :=
  if blocks.isEmpty then .ok none
  else
    let seed := o.name ++ ":" ++ String.join (blocks.map (·.content))
    let (id, tokens) := (source.getD (.digest seed)).next
    match (blocks.forM (addBlock parse)).run { id, tokens } with
    | .ok (_, scope) => .ok (some scope)
    | .error f => .error f

def scopeOf : List RawBlock → Compile.Options → Option TokenSource → Except Fault (Option Scope) :=
  scopeWith parseSheet

namespace Scope

variable (s : Scope)

def aliasOf? (name : String) : Option Alias :=
  (s.bucket? (Selector.print [{ kind := .«class» name }])).bind (·.2.external)

def classTokens : List (String × String) :=
  s.buckets.filterMap fun b =>
    if b.isSimple then b.className?.bind fun n => b.local.map (n, ·) else none

def classAliases : List (String × Alias) :=
  s.buckets.filterMap fun b =>
    if b.isSimple then b.className?.bind fun n => b.external.map (n, ·) else none

def cleanTexts : List String := s.buckets.map Bucket.text

def grants (root : Root) : Except Fault (List (Nat × String)) := do
  let outline := Outline.ofRoot root
  let perBucket ← s.buckets.mapM fun b =>
    match b.local with
    | none => .ok []
    | some token =>
      match outline.select b.clean with
      | .ok matches_ => .ok (matches_.flatMap fun m => (m.node :: m.path).map (·, token))
      | .error _ => .error (.unmatched b.origin)
  return perBucket.flatten

def apply (root : Root) : Except Fault Root := do
  let granted ← s.grants root
  return root.mapElements fun e =>
    (granted.filter (·.1 == e.id)).foldl (fun e g => e.addClass g.2) e

end Scope

/-! ## Printing -/

def isEmptyRule : Node → Bool
  | .rule _ [] => true
  | _ => false

mutual

def Node.dropEmpty : Node → Node
  | .rule lead block => .rule lead (dropEmptyRules false block)
  | .at name lead block =>
    match block with
    | some nodes => .at name lead (some (dropEmptyRules (isKeyframes name) nodes))
    | none => .at name lead none
  | n => n

/-- Rules without content are left out, keyframes excepted. -/
def dropEmptyRules (inKeyframes : Bool) : List Node → List Node
  | [] => []
  | n :: rest =>
    if isEmptyRule n && !inKeyframes then dropEmptyRules inKeyframes rest
    else n.dropEmpty :: dropEmptyRules inKeyframes rest

end

def Scope.content (s : Scope) : String :=
  String.join (s.sheets.map fun sheet => printSheet (dropEmptyRules false sheet))

end ReactiveMarkup.Style
