import ReactiveMarkup.Text.Quoted

/-! # Compiler options -/

namespace ReactiveMarkup.Compile

structure Options where
  name : String := "widget"
  exportDefault : Bool := true
  inlineTemplate : Bool := false
  hideLabel : Bool := false
  compact : Bool := true
  autoSubscribe : Bool := true
  preserveComments : Bool := false
  injectRuntime : Option String := none
  deriving DecidableEq, Repr

namespace Options

def named (name : String) : Options := { name }

def describe (o : Options) (ownTokens : Bool) (edits : Nat) : String :=
  let inject :=
    match o.injectRuntime with
    | some r => "Some(" ++ Text.quoted r ++ ")"
    | none => "None"
  "CompileOptions \x7b name: " ++ Text.quoted o.name ++
    s!", export_default: {o.exportDefault}, inline_template: {o.inlineTemplate}" ++
    s!", hide_label: {o.hideLabel}, compact: {o.compact}, auto_subscribe: {o.autoSubscribe}" ++
    s!", preserve_comments: {o.preserveComments}, inject_runtime: {inject}" ++
    s!", css_gen_id: {ownTokens}, plugins: {edits} \x7d"

end Options

end ReactiveMarkup.Compile
