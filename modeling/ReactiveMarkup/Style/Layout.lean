/-! # Layouts -/

namespace ReactiveMarkup.Style

inductive Layout where
  | spaced
  | dense
  deriving DecidableEq, Repr

def Layout.delim (l : Layout) (text : String) (before : Bool) : String :=
  match l with
  | spaced => (if before then " " else "") ++ text ++ " "
  | dense => text

end ReactiveMarkup.Style
