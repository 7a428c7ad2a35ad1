import ReactiveMarkup.Compile.Directory
import ReactiveMarkup.Compile.Pipeline

/-! # Compiling the components of a directory -/

namespace ReactiveMarkup.Compile

structure File where
  path : String
  bytes : ByteArray

def componentFiles (files : List File) : List File :=
  (files.filter fun f => isComponentFile f.path).mergeSort fun a b => pathLe a.path b.path

def compileFile (options : Options) (f : File) : Except Markup.Halt String :=
  match String.fromUTF8? f.bytes with
  | none => .error (.diagnostic Fault.notText.diagnose)
  | some source =>
    (compile source { options with name := componentName f.path } none []).outcome

end ReactiveMarkup.Compile
