import ReactiveMarkup.Text.Letter

/-! # Block headers -/

namespace ReactiveMarkup.Markup

/-- A control tag by its role. Roles that keep their text carry the whole header. -/
inductive Control where
  | sysTag (header : String)
  | each (header : String)
  | eachEnd
  | cond (header : String)
  | otherwise
  | condEnd
  | await (header : String)
  | onValue (header : String)
  | onError (header : String)
  | awaitEnd
  | slot (header : String)
  | slotEnd
  | fragment (header : String)
  | fragmentEnd
  deriving DecidableEq, Repr

namespace Control

def opensSection (keyword header : String) : Bool :=
  header == keyword || (keyword ++ " ").toList.isPrefixOf header.toList

def ofHeader? (h : String) : Option Control :=
  let cs := h.toList
  let starts (keyword : String) : Bool := keyword.toList.isPrefixOf cs
  let next (keyword : String) : Option Char := (cs.drop keyword.length).head?
  if starts "@" && (next "@").any Text.isWord then some (sysTag h)
  else if starts "#each " then some (each h)
  else if h == "/each" then some eachEnd
  else if starts "#if " then some (cond h)
  else if h == "/if" then some condEnd
  else if h == ":else" then some otherwise
  else if starts "#await " then some (await h)
  else if opensSection ":then" h then some (onValue h)
  else if opensSection ":catch" h then some (onError h)
  else if h == "/await" then some awaitEnd
  else if opensSection "#slot" h || starts "#slot:" then some (slot h)
  else if h == "/slot" then some slotEnd
  else if starts "#fragment" && (next "#fragment").any (!Text.isWord ·) then some (fragment h)
  else if h == "/fragment" then some fragmentEnd
  else none

end Control

end ReactiveMarkup.Markup
