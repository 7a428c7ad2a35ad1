/-! # Compilation phases

The points of a compilation at which edits apply, in order.
-/

namespace ReactiveMarkup.Compile

inductive Phase where
  | treeBefore
  | tree
  | treeCheck
  | treeCompact
  | treeAfter
  | scriptBefore
  | script
  | scriptAfter
  | styleBefore
  | style
  | templateBefore
  | template
  | buildBefore
  | buildShaking
  | buildAssemble
  | build
  deriving DecidableEq, Repr

namespace Phase

def name : Phase → String
  | treeBefore => "dom:before"
  | tree => "dom"
  | treeCheck => "dom:check"
  | treeCompact => "dom:compact"
  | treeAfter => "dom:after"
  | scriptBefore => "js:before"
  | script => "js"
  | scriptAfter => "js:after"
  | styleBefore => "css:before"
  | style => "css"
  | templateBefore => "runtime:before"
  | template => "runtime"
  | buildBefore => "build:before"
  | buildShaking => "build:shaking"
  | buildAssemble => "build:assemble"
  | build => "build"

def all : List Phase :=
  [treeBefore, tree, treeCheck, treeCompact, treeAfter, scriptBefore, script, scriptAfter,
    styleBefore, style, templateBefore, template, buildBefore, buildShaking, buildAssemble, build]

def ofName? (n : String) : Option Phase := all.find? (·.name == n)

theorem ofName?_name : ofName? p.name = some p := by
  cases p <;> rfl

end Phase

end ReactiveMarkup.Compile
