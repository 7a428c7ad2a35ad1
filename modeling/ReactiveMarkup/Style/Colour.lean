import ReactiveMarkup.Style.Numeral
import ReactiveMarkup.Style.Part

/-! # Colours -/

namespace ReactiveMarkup.Style

/-- Channels and opacity from 0 to 255, or the colour of the surrounding text. -/
inductive Colour where
  | rgba (red green blue alpha : Nat)
  | current
  deriving DecidableEq, Repr

def colourNames1 : List (String × Nat) := [
  ("aliceblue",0xF0F8FF), ("antiquewhite",0xFAEBD7), ("aqua",0x00FFFF), ("aquamarine",0x7FFFD4),
  ("azure",0xF0FFFF), ("beige",0xF5F5DC), ("bisque",0xFFE4C4), ("black",0x000000),
  ("blanchedalmond",0xFFEBCD), ("blue",0x0000FF), ("blueviolet",0x8A2BE2), ("brown",0xA52A2A),
  ("burlywood",0xDEB887), ("cadetblue",0x5F9EA0), ("chartreuse",0x7FFF00), ("chocolate",0xD2691E),
  ("coral",0xFF7F50), ("cornflowerblue",0x6495ED), ("cornsilk",0xFFF8DC), ("crimson",0xDC143C),
  ("cyan",0x00FFFF), ("darkblue",0x00008B), ("darkcyan",0x008B8B), ("darkgoldenrod",0xB8860B),
  ("darkgray",0xA9A9A9), ("darkgreen",0x006400), ("darkgrey",0xA9A9A9), ("darkkhaki",0xBDB76B),
  ("darkmagenta",0x8B008B), ("darkolivegreen",0x556B2F), ("darkorange",0xFF8C00),
  ("darkorchid",0x9932CC), ("darkred",0x8B0000), ("darksalmon",0xE9967A), ("darkseagreen",0x8FBC8F),
  ("darkslateblue",0x483D8B), ("darkslategray",0x2F4F4F), ("darkslategrey",0x2F4F4F),
  ("darkturquoise",0x00CED1), ("darkviolet",0x9400D3), ("deeppink",0xFF1493),
  ("deepskyblue",0x00BFFF), ("dimgray",0x696969), ("dimgrey",0x696969), ("dodgerblue",0x1E90FF),
  ("firebrick",0xB22222), ("floralwhite",0xFFFAF0), ("forestgreen",0x228B22), ("fuchsia",0xFF00FF),
  ("gainsboro",0xDCDCDC), ("ghostwhite",0xF8F8FF), ("gold",0xFFD700), ("goldenrod",0xDAA520),
  ("gray",0x808080), ("green",0x008000), ("greenyellow",0xADFF2F), ("grey",0x808080),
  ("honeydew",0xF0FFF0), ("hotpink",0xFF69B4), ("indianred",0xCD5C5C), ("indigo",0x4B0082),
  ("ivory",0xFFFFF0), ("khaki",0xF0E68C), ("lavender",0xE6E6FA), ("lavenderblush",0xFFF0F5),
  ("lawngreen",0x7CFC00), ("lemonchiffon",0xFFFACD), ("lightblue",0xADD8E6),
  ("lightcoral",0xF08080), ("lightcyan",0xE0FFFF), ("lightgoldenrodyellow",0xFAFAD2),
  ("lightgray",0xD3D3D3), ("lightgreen",0x90EE90), ("lightgrey",0xD3D3D3)]

def colourNames2 : List (String × Nat) := [
  ("lightpink",0xFFB6C1), ("lightsalmon",0xFFA07A), ("lightseagreen",0x20B2AA),
  ("lightskyblue",0x87CEFA), ("lightslategray",0x778899), ("lightslategrey",0x778899),
  ("lightsteelblue",0xB0C4DE), ("lightyellow",0xFFFFE0), ("lime",0x00FF00), ("limegreen",0x32CD32),
  ("linen",0xFAF0E6), ("magenta",0xFF00FF), ("maroon",0x800000), ("mediumaquamarine",0x66CDAA),
  ("mediumblue",0x0000CD), ("mediumorchid",0xBA55D3), ("mediumpurple",0x9370DB),
  ("mediumseagreen",0x3CB371), ("mediumslateblue",0x7B68EE), ("mediumspringgreen",0x00FA9A),
  ("mediumturquoise",0x48D1CC), ("mediumvioletred",0xC71585), ("midnightblue",0x191970),
  ("mintcream",0xF5FFFA), ("mistyrose",0xFFE4E1), ("moccasin",0xFFE4B5), ("navajowhite",0xFFDEAD),
  ("navy",0x000080), ("oldlace",0xFDF5E6), ("olive",0x808000), ("olivedrab",0x6B8E23),
  ("orange",0xFFA500), ("orangered",0xFF4500), ("orchid",0xDA70D6), ("palegoldenrod",0xEEE8AA),
  ("palegreen",0x98FB98), ("paleturquoise",0xAFEEEE), ("palevioletred",0xDB7093),
  ("papayawhip",0xFFEFD5), ("peachpuff",0xFFDAB9), ("peru",0xCD853F), ("pink",0xFFC0CB),
  ("plum",0xDDA0DD), ("powderblue",0xB0E0E6), ("purple",0x800080), ("rebeccapurple",0x663399),
  ("red",0xFF0000), ("rosybrown",0xBC8F8F), ("royalblue",0x4169E1), ("saddlebrown",0x8B4513),
  ("salmon",0xFA8072), ("sandybrown",0xF4A460), ("seagreen",0x2E8B57), ("seashell",0xFFF5EE),
  ("sienna",0xA0522D), ("silver",0xC0C0C0), ("skyblue",0x87CEEB), ("slateblue",0x6A5ACD),
  ("slategray",0x708090), ("slategrey",0x708090), ("snow",0xFFFAFA), ("springgreen",0x00FF7F),
  ("steelblue",0x4682B4), ("tan",0xD2B48C), ("teal",0x008080), ("thistle",0xD8BFD8),
  ("tomato",0xFF6347), ("turquoise",0x40E0D0), ("violet",0xEE82EE), ("wheat",0xF5DEB3),
  ("white",0xFFFFFF), ("whitesmoke",0xF5F5F5), ("yellow",0xFFFF00), ("yellowgreen",0x9ACD32)]

def colourNames : List (String × Nat) := colourNames1 ++ colourNames2

namespace Colour

def ofHex (n : Nat) : Colour := rgba (n / 65536 % 256) (n / 256 % 256) (n % 256) 255

def ofName? (name : String) : Option Colour :=
  match toLower name with
  | "transparent" => some (rgba 0 0 0 0)
  | "currentcolor" => some current
  | n => (colourNames.lookup n).map ofHex

def ofDigits? (digits : String) : Option Colour :=
  let ds := digits.toList
  if ds.all isHex then
    match ds.map hexValue with
    | [r, g, b] => some (rgba (17 * r) (17 * g) (17 * b) 255)
    | [r, g, b, a] => some (rgba (17 * r) (17 * g) (17 * b) (17 * a))
    | [r, r', g, g', b, b'] => some (rgba (16 * r + r') (16 * g + g') (16 * b + b') 255)
    | [r, r', g, g', b, b', a, a'] =>
      some (rgba (16 * r + r') (16 * g + g') (16 * b + b') (16 * a + a'))
    | _ => none
  else none

/-! ## Functional notations -/

/-- Units per one in the fixed-point numbers of this section. -/
def unit : Int := 1000000000000

def fixed (b : Number.Binary) : Int :=
  let (n, d) := b.ratio
  let m : Int := (n : Int) * unit / d
  if b.isNegative then -m else m

def times (a b : Int) : Int := a * b / unit

def clamp (lo hi x : Int) : Int := max lo (min hi x)

def byte (x : Int) : Nat := (clamp 0 255 ((2 * x + unit) / (2 * unit))).toNat

inductive Argument where
  | number (x : Int)
  | percent (x : Int)
  | angle (degrees : Int)
  deriving DecidableEq, Repr

def argument? : Part → Option Argument
  | .leaf (.number n) _ => some (.number (fixed n.value))
  | .leaf (.percentage n) _ => some (.percent (fixed n.value))
  | .leaf (.dimension n u) _ =>
    match toLower u with
    | "deg" => some (.angle (fixed n.value))
    | "grad" => some (.angle (fixed n.value * 9 / 10))
    | "turn" => some (.angle (fixed n.value * 360))
    | _ => none
  | _ => none

def isSlash : Part → Bool
  | .leaf (.delim '/') _ => true
  | _ => false

def arguments? (body : List Part) : Option (List Argument × Option Argument) :=
  let ps := body.filter fun p => !p.isSkipped
  if ps.any Part.isComma then
    match splitParts Part.isComma ps with
    | [[a], [b], [c]] => do
      return ([← argument? a, ← argument? b, ← argument? c], none)
    | [[a], [b], [c], [d]] => do
      return ([← argument? a, ← argument? b, ← argument? c], some (← argument? d))
    | _ => none
  else
    match splitParts isSlash ps with
    | [[a, b, c]] => do
      return ([← argument? a, ← argument? b, ← argument? c], none)
    | [[a, b, c], [d]] => do
      return ([← argument? a, ← argument? b, ← argument? c], some (← argument? d))
    | _ => none

def alpha? : Option Argument → Option Nat
  | none => some 255
  | some (.number x) => some (byte (255 * clamp 0 unit x))
  | some (.percent x) => some (byte (255 * clamp 0 unit (x / 100)))
  | some (.angle _) => none

def hslChannel (offset hue saturation lightness : Int) : Nat :=
  let k := (offset * unit + hue / 30) % (12 * unit)
  let a := times saturation (min lightness (unit - lightness))
  let ramp := clamp (-unit) unit (min (k - 3 * unit) (9 * unit - k))
  byte (255 * (lightness - times a ramp))

def ofFunction? (name : String) (body : List Part) : Option Colour := do
  let (components, opacity) ← arguments? body
  let alpha ← alpha? opacity
  match toLower name, components with
  | "rgb", [.number r, .number g, .number b] | "rgba", [.number r, .number g, .number b] =>
    return rgba (byte r) (byte g) (byte b) alpha
  | "rgb", [.percent r, .percent g, .percent b] | "rgba", [.percent r, .percent g, .percent b] =>
    return rgba (byte (255 * r / 100)) (byte (255 * g / 100)) (byte (255 * b / 100)) alpha
  | "hsl", [h, .percent s, .percent l] | "hsla", [h, .percent s, .percent l] =>
    let hue ← match h with
      | .number x | .angle x => some x
      | .percent _ => none
    let s := clamp 0 unit (s / 100)
    let l := clamp 0 unit (l / 100)
    return rgba (hslChannel 0 hue s l) (hslChannel 8 hue s l) (hslChannel 4 hue s l) alpha
  | _, _ => none

def ofPart? : Part → Option Colour
  | .leaf (.ident name) _ => ofName? name
  | .leaf (.hash digits _) _ => ofDigits? digits
  | .group (.function name) body _ _ => ofFunction? name body
  | _ => none

/-! ## Printing -/

def shortNames : List String :=
  ["navy", "green", "teal", "indigo", "maroon", "purple", "olive", "gray", "sienna", "brown",
    "silver", "peru", "tan", "orchid", "plum", "violet", "khaki", "azure", "wheat", "beige",
    "salmon", "linen", "red", "tomato", "coral", "orange", "pink", "gold", "bisque", "snow",
    "ivory"]

def shortName? (r g b : Nat) : Option String :=
  shortNames.find? fun n => ofName? n == some (rgba r g b 255)

def hexPair (n : Nat) : String := String.ofList [Nat.digitChar (n / 16), Nat.digitChar (n % 16)]

def hexText (channels : List Nat) : String :=
  if channels.all fun n => n / 16 == n % 16 then
    "#" ++ String.ofList (channels.map fun n => Nat.digitChar (n % 16))
  else "#" ++ String.join (channels.map hexPair)

def text : Colour → String
  | current => "currentColor"
  | rgba r g b a =>
    if a == 255 then (shortName? r g b).getD (hexText [r, g, b]) else hexText [r, g, b, a]

end Colour

end ReactiveMarkup.Style
