import ReactiveMarkup.Style.Media
import ReactiveMarkup.Style.Prelude

/-! # Rules

The rules of a style sheet as they are read. Reading stops at the first fault and reports its
offset; the end of the text closes whatever is open.
-/

namespace ReactiveMarkup.Style

structure Declaration where
  property : String
  value : String
  important : Bool := false
  deriving DecidableEq, Repr

/-- Declarations in order of writing: the important ones come last. -/
def inOrder (ds : List Declaration) : List Declaration :=
  ds.filter (fun d => !d.important) ++ ds.filter (·.important)

inductive FrameSelector where
  | first
  | last
  | percent (n : Number.Binary)
  deriving DecidableEq, Repr

structure Frame where
  selectors : List FrameSelector
  declarations : List Declaration
  deriving DecidableEq, Repr

/-- A rule. `grouping` holds other rules under a prelude that is only copied, `descriptor` holds
declarations, and `loose` stands for declarations after a nested rule. -/
inductive Rule where
  | style (selectors : List (List Term)) (declarations : List Declaration) (rules : List Rule)
  | loose (declarations : List Declaration)
  | media (queries : List MediaQuery) (rules : List Rule)
  | supports (condition : Condition Support) (rules : List Rule)
  | keyframes (vendor name : String) (frames : List Frame)
  | grouping (name lead : String) (rules : List Rule)
  | descriptor (name lead : String) (declarations : List Declaration)
  | statement (text : String)
  | unknown (name lead : String) (block : Option String)
  | ignored

/-! ## Declarations -/

variable (source : List Char) (slice : Text.Span → String)

def readImportance : List Part → Option Bool
  | [] => some false
  | .leaf (.delim '!') _ :: rest =>
    match components rest with
    | [.leaf (.ident w) _] => if toLower w == "important" then some true else none
    | _ => none
  | _ => none

def isBang : Part → Bool
  | .leaf (.delim '!') _ => true
  | _ => false

def isSemicolon : Part → Bool
  | .leaf .semicolon _ => true
  | _ => false

def readDeclaration (stop : Nat) (name : String) (nameStop : Nat) (rest : List Part) :
    Except Nat Declaration :=
  match skipBlanks rest with
  | [] => .error stop
  | .leaf .colon _ :: value => do
    let isCustom := ['-', '-'].isPrefixOf name.toList
    let ends (p : Part) : Bool := isBang p || (!isCustom && p.isCurly)
    let (front, back) := value.span fun p => !ends p
    let (property, text) ← declarationText name front
    match readImportance (skipBlanks back) with
    | some important => return { property, value := text, important }
    | none => .error (startOf back stop)
  | _ => .error nameStop

/-! ## Preludes and blocks of at-rules -/

structure Blocks where
  rules : (inStyle : Bool) → Nat → List Part → Except Nat (List Declaration × List Rule)

variable (b : Blocks) (inStyle : Bool) (stop : Nat)

def groupRules (body : List Part) : Except Nat (List Rule) :=
  (b.rules inStyle stop body).map fun (ds, rules) =>
    if ds.isEmpty then rules else .loose ds :: rules

def frameSelector? : Part → Option FrameSelector
  | .leaf (.percentage n) _ => some (.percent n.value)
  | .leaf (.ident w) _ =>
    if toLower w == "from" then some .first else if toLower w == "to" then some .last else none
  | _ => none

def readFrames (b : Blocks) (stop : Nat) : Nat → List Part → Except Nat (List Frame)
  | 0, _ => .ok []
  | fuel + 1, ps =>
    match (skipBlanks ps).span fun p => !p.isCurly with
    | ([], []) => .ok []
    | (_, []) => .error stop
    | (front, block :: rest) =>
      match block with
      | .group _ body _ inner => do
        let selectors ← (splitParts Part.isComma front).mapM fun piece =>
          match components piece with
          | [p] =>
            match frameSelector? p with
            | some s => .ok s
            | none => .error p.span.start
          | _ => .error (startOf piece block.span.start)
        let (declarations, nested) ← b.rules true inner.stop body
        if nested.isEmpty then
          return { selectors, declarations } :: (← readFrames b stop fuel rest)
        else .error inner.start
      | _ => .error stop

def layerName? : List Part → Option String
  | [.leaf (.ident n) _] => some (identText n)
  | .leaf (.ident n) _ :: .leaf (.delim '.') _ :: rest =>
    (layerName? rest).map fun r => identText n ++ "." ++ r
  | _ => none

def layerNames? (ps : List Part) : Option (List String) :=
  (splitParts Part.isComma ps).mapM fun piece => layerName? (trimParts piece)

def importUrl? : Part → Option String
  | .leaf (.string s) _ | .leaf (.url s) _ => some s
  | .group (.function n) body _ _ =>
    match toLower n, components body with
    | "url", [.leaf (.string s) _] => some s
    | _, _ => none
  | _ => none

def readImport (slice : Text.Span → String) (ps : List Part) (stop : Nat) : Except Nat Rule := do
  match components ps with
  | [] => .error stop
  | p :: rest =>
    match importUrl? p with
    | none => .error p.span.start
    | some url =>
      let (layer, rest) := match rest with
        | .leaf (.ident w) s :: rest =>
          if toLower w == "layer" then (" layer", rest) else ("", .leaf (.ident w) s :: rest)
        | .group (.function w) body s i :: rest =>
          match toLower w == "layer", layerName? (components body) with
          | true, some n => (" layer(" ++ n ++ ")", rest)
          | _, _ => ("", .group (.function w) body s i :: rest)
        | rest => ("", rest)
      let (supports, rest) := match rest with
        | .group (.function w) body s i :: rest =>
          if toLower w == "supports" then (" supports(" ++ slice i ++ ")", rest)
          else ("", .group (.function w) body s i :: rest)
        | rest => ("", rest)
      let queries ← readMedia rest
      let media := if queries.isEmpty then "" else " " ++ mediaText .dense queries
      return .statement ("@import " ++ stringText url ++ layer ++ supports ++ media ++ ";")

def descriptorText (d : Declaration) (ps : List Part) : Declaration :=
  if d.property == "src" then
    match (splitParts Part.isComma ps).mapM fun piece =>
        ((components piece).mapM fun p => (denseText [p]).toOption).map String.join with
    | some texts => { d with value := ",".intercalate texts }
    | none => d
  else d

def readDescriptors (body : List Part) : Except Nat (List Declaration) := do
  let pieces := (splitParts isSemicolon body).filter fun p => !(components p).isEmpty
  pieces.mapM fun piece =>
    match skipBlanks piece with
    | .leaf (.ident name) s :: rest => do
      let d ← readDeclaration stop name s.stop rest
      return descriptorText d ((skipBlanks rest).drop 1)
    | p :: _ => .error p.span.start
    | [] => .error stop

def vendorOf : String → Option String
  | "keyframes" | "-ms-keyframes" => some ""
  | "-webkit-keyframes" => some "-webkit-"
  | "-moz-keyframes" => some "-moz-"
  | "-o-keyframes" => some "-o-"
  | _ => none

def pageLead (ps : List Part) : Except Nat String :=
  (denseText ps).map fun t =>
    match (components ps).head? with
    | some (.leaf (.ident _) _) => " " ++ t
    | _ => t

def withLead (text : String) : String := if text.isEmpty then "" else " " ++ text

def mayNest (name : String) : Bool :=
  let apart := ["font-face", "keyframes", "-webkit-keyframes", "-moz-keyframes", "-o-keyframes",
    "-ms-keyframes", "page", "property", "import", "charset", "namespace", "custom-media",
    "viewport", "counter-style", "font-feature-values", "font-palette-values", "position-try",
    "view-transition"]
  !apart.contains name

def readAtBlock (name : String) (lead body : List Part) (inner : Text.Span) : Except Nat Rule := do
  let low := toLower name
  if inStyle && !mayNest low then .error inner.start
  else
    match vendorOf low with
    | some vendor =>
      match components lead with
      | [p] =>
        match p, keyframesName? p with
        | .leaf (.ident n) s, some text =>
          if toLower n == "none" then .error s.start
          else return .keyframes vendor text (← readFrames b inner.stop (body.length + 1) body)
        | _, some text =>
          return .keyframes vendor text (← readFrames b inner.stop (body.length + 1) body)
        | _, none => .error p.span.start
      | ps => .error (startOf ps inner.start)
    | none =>
      match low with
      | "media" =>
        let queries ← readMedia lead
        return .media queries (← groupRules b inStyle inner.stop body)
      | "supports" =>
        let condition ← readSupports slice lead
        return .supports condition (← groupRules b inStyle inner.stop body)
      | "layer" =>
        if (components lead).isEmpty then
          return .grouping "layer" "" (← groupRules b inStyle inner.stop body)
        else
          match layerNames? lead with
          | some [n] => return .grouping "layer" (" " ++ n) (← groupRules b inStyle inner.stop body)
          | _ => .error (startOf lead inner.start)
      | "container" | "scope" | "starting-style" =>
        let text ← denseText lead
        return .grouping low (withLead text) (← groupRules b inStyle inner.stop body)
      | "page" => return .descriptor low (← pageLead lead) (← readDescriptors inner.stop body)
      | "font-face" | "property" | "counter-style" | "font-palette-values" | "viewport"
      | "view-transition" | "position-try" =>
        let text ← denseText lead
        return .descriptor low (withLead text) (← readDescriptors inner.stop body)
      | "import" | "charset" | "namespace" | "custom-media" => .error inner.start
      | _ =>
        let text ← denseText lead
        return .unknown name (withLead text) (some (← denseText body))

def readAtStatement (slice : Text.Span → String) (inStyle : Bool) (name : String)
    (lead : List Part) (stop : Nat) : Except Nat Rule := do
  let low := toLower name
  if inStyle && !mayNest low then .error stop
  else
    match low with
    | "import" => readImport slice lead stop
    | "charset" => return .ignored
    | "namespace" =>
      let text ← (components lead).mapM fun p =>
        match importUrl? p with
        | some url => .ok (stringText url)
        | none => denseText [p]
      return .statement ("@namespace " ++ " ".intercalate text ++ ";")
    | "layer" =>
      match layerNames? lead with
      | some names => return .statement ("@layer " ++ ",".intercalate names ++ ";")
      | none => .error (startOf lead stop)
    | "media" | "supports" | "container" | "scope" | "starting-style" | "page" | "font-face"
    | "property" | "counter-style" | "font-palette-values" | "viewport" | "view-transition"
    | "position-try" => .error stop
    | _ =>
      if (vendorOf low).isSome then .error stop
      else return .unknown name (withLead (← denseText lead)) none

/-! ## Blocks -/

/-- What has been read of a block: declarations before the first nested rule, and rules, both in
reverse. -/
structure Body where
  declarations : List Declaration := []
  rules : List Rule := []

namespace Body

def declare (b : Body) (d : Declaration) : Body :=
  match b.rules with
  | [] => { b with declarations := d :: b.declarations }
  | .loose ds :: rest => { b with rules := .loose (ds ++ [d]) :: rest }
  | rules => { b with rules := .loose [d] :: rules }

def add (b : Body) (r : Rule) : Body := { b with rules := r :: b.rules }

end Body

def readStyleRule (source : List Char) (b : Blocks) (nested : Bool) (stop : Nat) (ps : List Part) :
    Except Nat (Rule × List Part) :=
  match ps.span fun p => !(p.isCurly || (nested && isSemicolon p)) with
  | (_, []) => .error stop
  | (front, block :: rest) =>
    match block with
    | .group _ body span inner => do
      let selectors ←
        if nested then readNestedSelectors source span.start front
        else readSelectors source span.start front
      let (declarations, rules) ← b.rules true inner.stop body
      return (.style selectors declarations rules, rest)
    | p => .error p.span.start

def readAtRule (name : String) (ps : List Part) : Except Nat (Rule × List Part) :=
  let slice (s : Text.Span) : String := String.ofList (textBetween source s)
  let (lead, rest) := ps.span fun p => !(p.isCurly || isSemicolon p)
  match rest with
  | .group _ body _ inner :: rest =>
    (readAtBlock slice b inStyle name (trimParts lead) body inner).map (·, rest)
  | p :: rest => (readAtStatement slice inStyle name (trimParts lead) p.span.stop).map (·, rest)
  | [] => (readAtStatement slice inStyle name (trimParts lead) stop).map (·, [])

def readBody (source : List Char) (b : Blocks) (inStyle : Bool) (stop : Nat) :
    Nat → Body → List Part → Except Nat Body
  | 0, body, _ => .ok body
  | fuel + 1, body, ps =>
    match ps with
    | [] => .ok body
    | .leaf (.blank _) _ :: rest | .leaf (.comment _) _ :: rest | .leaf .semicolon _ :: rest =>
      readBody source b inStyle stop fuel body rest
    | .leaf (.atKeyword name) _ :: rest => do
      let (rule, rest) ← readAtRule source b inStyle stop name rest
      readBody source b inStyle stop fuel (body.add rule) rest
    | .leaf (.ident name) s :: rest =>
      if inStyle then
        let (own, after) := rest.span fun p => !isSemicolon p
        match readDeclaration (startOf after stop) name s.stop own with
        | .ok d => readBody source b inStyle stop fuel (body.declare d) after
        | .error fault =>
          match readStyleRule source b true stop (.leaf (.ident name) s :: rest) with
          | .ok (rule, rest) => readBody source b inStyle stop fuel (body.add rule) rest
          | .error _ => .error fault
      else do
        let (rule, rest) ← readStyleRule source b false stop (.leaf (.ident name) s :: rest)
        readBody source b inStyle stop fuel (body.add rule) rest
    | ps => do
      let (rule, rest) ← readStyleRule source b inStyle stop ps
      readBody source b inStyle stop fuel (body.add rule) rest

def blocksAt (source : List Char) : Nat → Blocks
  | 0 => { rules := fun _ stop _ => .error stop }
  | depth + 1 =>
    { rules := fun inStyle stop ps =>
        (readBody source (blocksAt source depth) inStyle stop (ps.length + 1) {} ps).map fun b =>
          (b.declarations.reverse, b.rules.reverse) }

/-- How far a sheet has come: some rules may stand only at its head. -/
inductive Stage where
  | imports
  | namespaces
  | rules
  deriving DecidableEq, Repr

/-- The stage after an at-rule; none when it comes too late. -/
def Stage.advance (s : Stage) (name : String) (hasBlock : Bool) : Option Stage :=
  match toLower name with
  | "import" => if s = .imports then some .imports else none
  | "charset" => some s
  | "namespace" => if s = .rules then none else some .namespaces
  | "layer" => if hasBlock then some .rules else some s
  | _ => some .rules

def readSheet (source : List Char) (b : Blocks) (stop : Nat) (stage : Stage) :
    Nat → List Part → Except Nat (List Rule)
  | 0, _ => .ok []
  | fuel + 1, ps =>
    match ps with
    | [] => .ok []
    | .leaf (.blank _) _ :: rest | .leaf (.comment _) _ :: rest | .leaf .cdo _ :: rest
    | .leaf .cdc _ :: rest =>
      readSheet source b stop stage fuel rest
    | .leaf (.atKeyword name) s :: rest =>
      let hasBlock := (rest.find? fun p => p.isCurly || isSemicolon p).any Part.isCurly
      match stage.advance name hasBlock with
      | none => .error s.start
      | some stage => do
        let (rule, rest) ← readAtRule source b false stop name rest
        return rule :: (← readSheet source b stop stage fuel rest)
    | ps => do
      let (rule, rest) ← readStyleRule source b false stop ps
      return rule :: (← readSheet source b stop .rules fuel rest)

def skipCharset (ps : List Part) : List Part :=
  match ps.dropWhile fun p => p.isSkipped with
  | .leaf (.atKeyword name) _ :: rest =>
    if toLower name == "charset" then (rest.dropWhile fun p => !isSemicolon p).drop 1 else ps
  | _ => ps

def readRules : Except Nat (List Rule) :=
  let parts := skipCharset (partsOf source)
  readSheet source (blocksAt source (depthOf parts + 1)) (Text.byteLength source) .imports
    (parts.length + 1) parts

end ReactiveMarkup.Style
