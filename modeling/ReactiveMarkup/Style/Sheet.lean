import ReactiveMarkup.Style.Rule

/-! # Style sheets

The tree that scoping works on: rules with their selectors, at-rules, declarations with the text
of their value, and text that is only copied. Printing puts no space that is not needed.
-/

namespace ReactiveMarkup.Style

/-- The selectors of a keyframe are kept as text. -/
inductive RulePrelude where
  | selectors (list : List Selector)
  | keyframe (text : String)
  deriving DecidableEq, Repr

inductive Node where
  | rule (lead : RulePrelude) (block : List Node)
  | at (name lead : String) (block : Option (List Node))
  | declaration (d : Declaration)
  | raw (text : String)

def isKeyframes (name : String) : Bool :=
  ["keyframes", "-webkit-keyframes", "-moz-keyframes", "-o-keyframes"].contains name

/-! ## Dense text of rules -/

def Declaration.print (d : Declaration) : String :=
  d.property ++ ":" ++ d.value ++ (if d.important then "!important" else "")

def declarationsText (ds : List Declaration) : String :=
  ";".intercalate ((inOrder ds).map Declaration.print)

def FrameSelector.text : FrameSelector → String
  | first => "from"
  | last => "to"
  | percent n => percentText n

def FrameSelector.denseText : FrameSelector → String
  | first => "0%"
  | last => "to"
  | percent n => if percentText n == "100%" then "to" else percentText n

def braced (text : String) : String := "\x7b" ++ text ++ "\x7d"

mutual

def Rule.dense : Rule → String
  | .style selectors ds rules =>
    let separator := if ds.isEmpty || rules.isEmpty then "" else ";"
    listText .dense selectors ++ braced (declarationsText ds ++ separator ++ denseRules rules)
  | .loose ds => declarationsText ds
  | .media queries rules =>
    let lead := mediaText .dense queries
    "@media" ++ withLead lead ++ braced (denseRules rules)
  | .supports c rules =>
    "@supports " ++ c.text (Support.print .dense) ++ braced (denseRules rules)
  | .keyframes vendor name frames =>
    "@" ++ vendor ++ "keyframes " ++ name ++ braced (String.join (frames.map fun f =>
      ",".intercalate (f.selectors.map FrameSelector.denseText) ++
        braced (declarationsText f.declarations)))
  | .grouping name lead rules => "@" ++ name ++ lead ++ braced (denseRules rules)
  | .descriptor name lead ds => "@" ++ name ++ lead ++ braced (declarationsText ds)
  | .statement text => text
  | .unknown name lead block =>
    match block with
    | some text => "@" ++ name ++ lead ++ braced text
    | none => "@" ++ name ++ lead ++ ";"
  | .ignored => ""

def denseRules : List Rule → String
  | [] => ""
  | r :: rest => r.dense ++ denseRules rest

end

/-! ## From rules to nodes -/

def declarationNodes (ds : List Declaration) : List Node := (inOrder ds).map .declaration

def Frame.node (f : Frame) : Node :=
  .rule (.keyframe (",".intercalate (f.selectors.map FrameSelector.text)))
    (declarationNodes f.declarations)

mutual

/-- The selectors of a rule are read again from their normal text, which may be refused. -/
def Rule.node : Rule → Except Fault Node
  | .style selectors ds rules =>
    match nodesOf rules, parseSelectorList (listText .spaced selectors) with
    | .ok nested, .ok list => .ok (.rule (.selectors list) (declarationNodes ds ++ nested))
    | .error f, _ | _, .error f => .error f
  | .media queries rules =>
    match nodesOf rules with
    | .ok block => .ok (.at "media" (mediaText .spaced queries) (some block))
    | .error f => .error f
  | .supports c rules =>
    match nodesOf rules with
    | .ok block => .ok (.at "supports" (c.text (Support.print .spaced)) (some block))
    | .error f => .error f
  | .keyframes vendor name frames =>
    .ok (.at (vendor ++ "keyframes") name (some (frames.map Frame.node)))
  | r => .ok (.raw r.dense)

def nodesOf : List Rule → Except Fault (List Node)
  | [] => .ok []
  | r :: rest =>
    match r.node, nodesOf rest with
    | .ok n, .ok ns => .ok (n :: ns)
    | .error f, _ | _, .error f => .error f

end

/-- Line of a byte offset, counted from zero. A return, alone or before a line feed, and a form
feed also end a line. -/
def lineAt : List Char → Nat → Nat
  | [], _ => 0
  | c :: rest, n =>
    if n < c.utf8Size then 0
    else
      let here := if c == '\n' || c.toNat == 0xC || (c == '\r' && rest.head? != some '\n') then 1
        else 0
      here + lineAt rest (n - c.utf8Size)

def linesOf (text : String) : List String :=
  let lines := text.splitOn "\n"
  if lines.getLast? == some "" then lines.dropLast else lines

def parseSheet (source : String) : Except Fault (List Node) :=
  match readRules source.toList with
  | .ok rules => nodesOf rules
  | .error offset =>
    .error (.syntaxError ((linesOf source)[lineAt source.toList offset]?.map Text.trim))

/-! ## Printing -/

def RulePrelude.print : RulePrelude → String
  | selectors list => ",".intercalate (list.map Selector.print)
  | keyframe text => text

def Node.isDeclaration : Node → Bool
  | declaration _ => true
  | _ => false

mutual

def Node.print : Node → String
  | .declaration d => d.print
  | .raw text => text
  | .rule lead block => lead.print ++ braced (printBlock block)
  | .at name lead block =>
    "@" ++ name ++ withLead lead ++
      (match block with
       | some nodes => braced (printBlock nodes)
       | none => ";")

def printBlock : List Node → String
  | [] => ""
  | n :: rest =>
    n.print ++ (if n.isDeclaration && !rest.isEmpty then ";" else "") ++ printBlock rest

end

def printSheet (nodes : List Node) : String := String.join (nodes.map Node.print)

end ReactiveMarkup.Style
