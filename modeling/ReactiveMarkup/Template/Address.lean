import ReactiveMarkup.Template.Names

/-! # Addresses

Dynamic nodes of a template are named by local variables. The tree of addresses holds the names by
position: each step is a child index. A variable is looked up from the nearest named node above it.
-/

namespace ReactiveMarkup.Template

/-- Children are kept in order of their index. -/
inductive Address where
  | node (name : Option String) (children : List (Nat × Address))

namespace Address

def empty : Address := node none []

def name? : Address → Option String
  | node n _ => n

def children : Address → List (Nat × Address)
  | node _ cs => cs

def childAt (i : Nat) (cs : List (Nat × Address)) : Address := (cs.lookup i).getD empty

def putChild (i : Nat) (a : Address) : List (Nat × Address) → List (Nat × Address)
  | [] => [(i, a)]
  | (k, b) :: rest =>
    if i < k then (i, a) :: (k, b) :: rest
    else if i = k then (i, a) :: rest
    else (k, b) :: putChild i a rest

/-- The name of the node at a path, which is made when there is none; `stem` begins a new name. -/
def claim (stem : String) (a : Address) (names : Names) : List Nat → String × Address × Names
  | [] =>
    match a with
    | node (some n) cs => (n, node (some n) cs, names)
    | node none cs =>
      let (n, names) := names.fresh stem
      (n, node (some n) cs, names)
  | i :: path =>
    let (n, child, names) := claim stem (childAt i a.children) names path
    (n, node a.name? (putChild i child a.children), names)

end Address

/-- Defines a variable as the node reached from another variable by child indices. -/
structure Lookup where
  name : String
  base : String
  steps : List Nat
  deriving DecidableEq, Repr

def stepText (i : Nat) : String :=
  if i = 0 then "[$runtime.firstChild]" else "[$runtime.childNodes][" ++ toString i ++ "]"

def Lookup.print (l : Lookup) : String :=
  "let " ++ l.name ++ " = " ++ l.base ++ String.join (l.steps.map stepText) ++ ";\n"

mutual

/-- The variables of a tree in order of definition. A node that has several children and no name
is given one. `base` and `steps` lead to the node. -/
def Address.lookups (stem base : String) (steps : List Nat) (names : Names) :
    Address → List Lookup × Names
  | .node name children =>
    let (name, names) := match name with
      | some n => (some n, names)
      | none =>
        if 1 < children.length then
          let (n, names) := names.fresh stem
          (some n, names)
        else (none, names)
    match name with
    | some n =>
      let (rest, names) := lookupsOf stem n [] names children
      ({ name := n, base, steps } :: rest, names)
    | none => lookupsOf stem base steps names children

def lookupsOf (stem base : String) (steps : List Nat) (names : Names) :
    List (Nat × Address) → List Lookup × Names
  | [] => ([], names)
  | (i, a) :: rest =>
    let (here, names) := a.lookups stem base (steps ++ [i]) names
    let (more, names) := lookupsOf stem base steps names rest
    (here ++ more, names)

end

end ReactiveMarkup.Template
