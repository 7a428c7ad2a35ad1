import ReactiveMarkup.Script.Reader

/-! # Binding patterns and parameters -/

namespace ReactiveMarkup.Script

open Reader

variable (g : Grammar)

def withDefault (start : Nat) (target : Tree) : Reader Tree := do
  if ← eat? "=" then
    let value ← withIn g.assignment
    build start .defaulted [target, value]
  else return target

def bindingElement : Reader Tree := do
  let start ← here
  withDefault g start (← g.pattern)

def restElement (close : String) : Reader Tree := tree do
  expect "..."
  let target ← g.pattern
  unless ← at? close do fail
  return (.rest, [target])

def propertyKey : Reader (Tree × Bool) := do
  match (← current).lexeme with
  | .string points raw => return (← lone (.string points raw), false)
  | .number v => return (← lone (.number v), false)
  | .bigint text => return (← lone (.bigint text), false)
  | .privateName text => return (← lone (.privateName text), false)
  | .mark "[" =>
    advance
    let key ← withIn g.assignment
    expect "]"
    return (key, true)
  | _ => return (← anyName, false)

/-- A property that is written as a name alone. -/
def shorthand (start : Nat) (word : Option String) (key : Tree) : Reader Tree := do
  match word with
  | some w =>
    if fitsName (← read) w then
      let target ← withDefault g start key
      build start (.property .value false true) [key, target]
    else fail
  | none => fail

def arrayElement : Reader Tree := do
  if ← at? "," then build (← here) .hole []
  else if ← at? "..." then restElement g "]"
  else bindingElement g

def propertyPattern : Reader Tree := do
  let start ← here
  if ← at? "..." then
    expect "..."
    let target ← bindingName
    unless ← at? "\x7d" do fail
    build start .rest [target]
  else
    let word := (← current).word?
    let (key, computed) ← propertyKey g
    if ← eat? ":" then
      let value ← bindingElement g
      build start (.property .value computed false) [key, value]
    else shorthand g start word key

def bindingPattern : Reader Tree := do
  let start ← here
  if ← eat? "[" then
    let elements ← commaTo "]" (arrayElement g)
    build start .arrayPattern elements
  else if ← eat? "\x7b" then
    let properties ← commaTo "\x7d" (propertyPattern g)
    build start .objectPattern properties
  else bindingName

def parameters : Reader Tree := tree do
  expect "("
  let item : Reader Tree := do
    if ← at? "..." then restElement g ")" else bindingElement g
  let ps ← commaTo ")" item
  return (.params, ps)

end ReactiveMarkup.Script
