/-! # Static templates

The part of a block that never changes, as a forest of nodes. Its text is cloned when the block is
shown, and the dynamic parts are found in the clone by their position in the forest.
-/

namespace ReactiveMarkup.Template

/-- A node of a template. A `hole` is a text that is filled in later, a `label` a comment that
marks the place of a block, and a `guard` a comment that keeps a label from being last. -/
inductive Static where
  | text (value : String)
  | hole
  | label (comment : String)
  | guard
  | verbatim (text : String)
  | element (openTag closeTag : String) (body : List Static)

mutual

def Static.print : Static → String
  | .text v => v
  | .hole => " "
  | .label comment => comment
  | .guard => "<!---->"
  | .verbatim t => t
  | .element openTag closeTag body => openTag ++ printStatic body ++ closeTag

def printStatic : List Static → String
  | [] => ""
  | s :: rest => s.print ++ printStatic rest

end

@[simp] theorem printStatic_append : printStatic (xs ++ ys) = printStatic xs ++ printStatic ys := by
  induction xs with
  | nil => simp [printStatic]
  | cons x xs ih => simp [printStatic, ih, String.append_assoc]

end ReactiveMarkup.Template
