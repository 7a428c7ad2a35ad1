import ReactiveMarkup.Compile.Context
import ReactiveMarkup.Template.Element

/-! # Assembling the module

The text of a compiled component.
-/

namespace ReactiveMarkup.Compile

open Template (Gen lines)

def supportModule : String := "malinajs/runtime.js"

def quotedPair (name value : String) : String := s!"'{name}': {value}"

def aliasText : Style.Alias → String
  | .passthrough => "true"
  | .token t => s!"'{t}'"

def resolverCode : Option Style.Scope → String
  | none => "const $$resolveClass = $runtime.noop;"
  | some scope =>
    let classes := ", ".intercalate (scope.classTokens.map fun p => quotedPair p.1 s!"'{p.2}'")
    let aliases := ", ".intercalate (scope.classAliases.map fun p => quotedPair p.1 (aliasText p.2))
    let main := match scope.main with
      | some m => s!"'{m}'"
      | none => "null"
    "const $$resolveClass = $runtime.makeClassResolver(\n$option, \x7b" ++ classes ++ "\x7d, \x7b" ++
      aliases ++ "\x7d, " ++ main ++ "\n);"

def generateParts (root : Markup.Root) : Gen Parts := do
  let setting ← read
  let script := setting.script
  let block ← Template.generate root.body .other {}
  let fragment ← Template.fragmentOf block
  let optionally (condition : Bool) (text : String) : List String :=
    if condition then [text] else []
  let styles ← match setting.scope with
    | some s => do
      let content ← Template.quoted s.content
      pure [s!"$runtime.addStyles('{s.id}', " ++ Template.backquoted content ++ ");"]
    | none => pure []
  let body := ["return (function() \x7b\nlet $cd = $component.$cd;", block.source,
      s!"const rootTemplate = {fragment};",
      s!"{block.binder}($cd, rootTemplate);\n$component.$$render(rootTemplate);"] ++
    optionally script.onMount
      "if($option.noMount) $component.onMount = onMount;\nelse $tick(onMount);" ++
    optionally script.onDestroy "$runtime.cd_onDestroy($cd, onDestroy);" ++
    optionally (!script.watchers.isEmpty) (lines script.watchers) ++ styles ++
    ["$$apply();\nreturn $component;\n\x7d)();"]
  let header := if (← get).usesResolver then resolverCode setting.scope else ""
  return { header, body := lines body }

def assemble (c : Context) (script : Script.Component) : String :=
  let fragment := if c.options.hideLabel then "$$htmlToFragmentClean as $$htmlToFragment"
    else "$$htmlToFragment"
  let inject := match c.options.injectRuntime with
    | some t => t ++ "\n"
    | none => ""
  let code := Text.replaceFirst script.code "$$runtimeHeader()" c.parts.header
  s!"import * as $runtime from '{supportModule}';\n" ++
    s!"import \x7b $watch, $watchReadOnly, $tick \x7d from '{supportModule}';\n" ++
    s!"import \x7b {fragment} \x7d from '{supportModule}';\n" ++ inject ++
    Text.replaceFirst code "$$runtime()" c.parts.body

end ReactiveMarkup.Compile
