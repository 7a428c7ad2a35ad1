/-! # Fresh names -/

namespace ReactiveMarkup.Template

/-- A supply of names: each is its prefix followed by a number that no other name has. -/
structure Names where
  count : Nat := 0
  deriving DecidableEq, Repr

def Names.fresh (n : Names) (stem : String) : String × Names :=
  (stem ++ toString n.count, { count := n.count + 1 })

end ReactiveMarkup.Template
