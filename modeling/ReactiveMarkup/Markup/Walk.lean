import ReactiveMarkup.Markup.Node

/-! # Walking a tree

Nodes in document order: the main body of a condition before its alternative, the pending body
of an await before the bodies of its outcomes.
-/

namespace ReactiveMarkup.Markup

inductive Visit where
  | node (n : Node)
  | element (e : Element)
  | text (value : String)
  | raw (block : RawBlock)
  | each (header : String)
  | cond (header : String)
  | await (header : String)
  | slot (header : String)
  | fragment (header : String)

mutual

/-- The walk of a node. The body of an element whose name satisfies `skip` is left out, and so is
the body of a loop when `"#each"` satisfies it. -/
def Node.visits (skip : String → Bool) : Node → List Visit
  | .element e body s =>
    .node (.element e body s) :: .element e ::
      (if skip e.name then [] else visitsOf skip body)
  | .text v s => [.node (.text v s), .text v]
  | .comment c s => [.node (.comment c s)]
  | .raw b => [.node (.raw b), .raw b]
  | .each h body s =>
    .node (.each h body s) :: .each h :: (if skip "#each" then [] else visitsOf skip body)
  | .cond h body hasElse alt s =>
    .node (.cond h body hasElse alt s) :: .cond h :: (visitsOf skip body ++ visitsOf skip alt)
  | .await h main th tb ch cb s =>
    .node (.await h main th tb ch cb s) :: .await h ::
      (visitsOf skip main ++ visitsOf skip tb ++ visitsOf skip cb)
  | .slot h body s => .node (.slot h body s) :: .slot h :: visitsOf skip body
  | .fragment h body s => .node (.fragment h body s) :: .fragment h :: visitsOf skip body
  | .sysTag h s => [.node (.sysTag h s)]

def visitsOf (skip : String → Bool) : List Node → List Visit
  | [] => []
  | n :: rest => n.visits skip ++ visitsOf skip rest

end

mutual

def Node.mapElements (f : Element → Element) : Node → Node
  | .element e body s => .element (f e) (mapAllElements f body) s
  | .each h body s => .each h (mapAllElements f body) s
  | .cond h body hasElse alt s => .cond h (mapAllElements f body) hasElse (mapAllElements f alt) s
  | .await h main th tb ch cb s =>
    .await h (mapAllElements f main) th (mapAllElements f tb) ch (mapAllElements f cb) s
  | .slot h body s => .slot h (mapAllElements f body) s
  | .fragment h body s => .fragment h (mapAllElements f body) s
  | .text v s => .text v s
  | .comment c s => .comment c s
  | .raw b => .raw b
  | .sysTag h s => .sysTag h s

def mapAllElements (f : Element → Element) : List Node → List Node
  | [] => []
  | n :: rest => n.mapElements f :: mapAllElements f rest

end

def Root.mapElements (f : Element → Element) (root : Root) : Root :=
  { root with body := mapAllElements f root.body }

def Root.texts (root : Root) : List String :=
  (visitsOf (fun _ => false) root.body).filterMap fun
    | .text v => some v
    | _ => none

def Root.elements (root : Root) : List Element :=
  (visitsOf (fun _ => false) root.body).filterMap fun
    | .element e => some e
    | _ => none

end ReactiveMarkup.Markup
