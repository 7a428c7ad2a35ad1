import ReactiveMarkup.Script.Tree

/-! # Assignment targets

An expression on the left of an assignment is read before the assignment is known. Array and
object literals there become patterns of targets.
-/

namespace ReactiveMarkup.Script

namespace Tree

def isSimpleTarget : Tree → Bool
  | node (.name _) _ _ => true
  | node (.dot _) _ _ => true
  | node (.index _) _ _ => true
  | node .paren _ [e] => e.isSimpleTarget
  | _ => false

mutual

def toTarget : Tree → Option Tree
  | node .array s ps => (toElements ps).map (node .arrayTarget s)
  | node .object s ps => (toProperties ps).map (node .objectTarget s)
  | t => if t.isSimpleTarget then some t else none

def toElement : Tree → Option Tree
  | node (.assign op) s [target, value] =>
    if op == "=" then some (node .defaulted s [target, value]) else none
  | node .defaulted s [target, value] => (toTarget target).map fun t => node .defaulted s [t, value]
  | t => toTarget t

def toElements : List Tree → Option (List Tree)
  | [] => some []
  | node .hole s ps :: rest => (toElements rest).map (node .hole s ps :: ·)
  | [node (.spread true) s [t]] => (toTarget t).map fun t => [node .rest s [t]]
  | t :: rest =>
    match toElement t, toElements rest with
    | some t, some rest => some (t :: rest)
    | _, _ => none

def toProperties : List Tree → Option (List Tree)
  | [] => some []
  | [node (.spread true) s [t]] => if t.isSimpleTarget then some [node .rest s [t]] else none
  | node (.property .value computed shorthand) s [key, value] :: rest =>
    match toElement value, toProperties rest with
    | some v, some rest => some (node (.property .value computed shorthand) s [key, v] :: rest)
    | _, _ => none
  | _ => none

end

def hasStrayDefault (t : Tree) : Bool :=
  t.any fun
    | node .object _ ps => ps.any fun
      | node (.property _ _ true) _ [_, node .defaulted _ _] => true
      | _ => false
    | _ => false

end Tree

end ReactiveMarkup.Script
