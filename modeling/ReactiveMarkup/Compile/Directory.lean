/-! # Component files

Which files of a directory are compiled, in which order, and under which names.
-/

namespace ReactiveMarkup.Compile

def components (path : String) : List String :=
  match path.splitOn "/" with
  | [] => []
  | first :: rest => (if first == "" then [] else [first]) ++ rest.filter fun c => c != "" && c != "."

def fileName? (path : String) : Option String :=
  match (components path).getLast? with
  | some "." => none
  | some ".." => none
  | other => other

/-- A file name as the part before its last dot and the part after it. A leading dot starts no
extension. -/
def splitExtension (name : String) : String × Option String :=
  let back := name.toList.reverse
  let ext := back.takeWhile (· != '.')
  let rest := back.drop ext.length
  match rest with
  | '.' :: c :: stem => (String.ofList (c :: stem).reverse, some (String.ofList ext.reverse))
  | _ => (name, none)

def isNameChar (c : Char) : Bool := c.isAlphanum || c == '_' || c == '$'

/-- The component name that a path stands for: its stem with every unfit character replaced. -/
def componentName (path : String) : String :=
  let stem := ((fileName? path).map fun n => (splitExtension n).1).getD "widget"
  let name := stem.toList.map fun c => if isNameChar c then c else '_'
  String.ofList (if name.head?.any Char.isDigit then '_' :: name else name)

def componentExtensions : List String := ["html", "xht"]

def isComponentFile (path : String) : Bool :=
  ((fileName? path).bind fun n => (splitExtension n).2).any componentExtensions.contains

def pathLe (a b : String) : Bool :=
  let rec go : List String → List String → Bool
    | [], _ => true
    | _ :: _, [] => false
    | x :: xs, y :: ys => if x == y then go xs ys else x ≤ y
  go (components a) (components b)

end ReactiveMarkup.Compile
