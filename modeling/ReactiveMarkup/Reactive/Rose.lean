/-! # Trees with labels -/

namespace ReactiveMarkup.Reactive

inductive Rose (α : Type) where
  | node (label : α) (children : List (Rose α))
  deriving Inhabited

namespace Rose

variable {α β : Type}

def label : Rose α → α
  | node a _ => a

def children : Rose α → List (Rose α)
  | node _ cs => cs

mutual
def map (f : α → β) : Rose α → Rose β
  | node a cs => node (f a) (mapAll f cs)

def mapAll (f : α → β) : List (Rose α) → List (Rose β)
  | [] => []
  | t :: rest => map f t :: mapAll f rest
end

mutual
def preorder : Rose α → List α
  | node a cs => a :: preorderAll cs

def preorderAll : List (Rose α) → List α
  | [] => []
  | t :: rest => preorder t ++ preorderAll rest
end

mutual
def foldText (f : α → String → String) : Rose α → String
  | node a cs => f a (foldTextAll f cs)

def foldTextAll (f : α → String → String) : List (Rose α) → String
  | [] => ""
  | t :: rest => foldText f t ++ foldTextAll f rest
end

end Rose

end ReactiveMarkup.Reactive
