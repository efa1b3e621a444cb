import PineEngine.Decimal.Hex
import PineEngine.Text.Case
import PineEngine.Value.Entry

/-! # Colours

A colour is written as a name or, after a number mark, as components to base sixteen. The text of a number
is cut into pieces a third as long as it is, so that a longer text has more than three components.

Figures and drawings each accept colours of their own: `isFigureColor` and `isCanvasColor`.
-/

namespace PineEngine.Chart.Color

open Decimal

def namedTable : String := "
  aliceblue f0f8ff antiquewhite faebd7 aqua 00ffff aquamarine 7fffd4 azure f0ffff beige f5f5dc bisque ffe4c4 black
  000000 blanchedalmond ffebcd blue 0000ff blueviolet 8a2be2 brown a52a2a burlywood deb887 cadetblue 5f9ea0
  chartreuse 7fff00 chocolate d2691e coral ff7f50 cornflowerblue 6495ed cornsilk fff8dc crimson dc143c cyan 00ffff
  darkblue 00008b darkcyan 008b8b darkgoldenrod b8860b darkgray a9a9a9 darkgrey a9a9a9 darkgreen 006400 darkkhaki
  bdb76b darkmagenta 8b008b darkolivegreen 556b2f darkorange ff8c00 darkorchid 9932cc darkred 8b0000 darksalmon
  e9967a darkseagreen 8fbc8f darkslateblue 483d8b darkslategray 2f4f4f darkslategrey 2f4f4f darkturquoise 00ced1
  darkviolet 9400d3 deeppink ff1493 deepskyblue 00bfff dimgray 696969 dimgrey 696969 dodgerblue 1e90ff firebrick
  b22222 floralwhite fffaf0 forestgreen 228b22 fuchsia ff00ff gainsboro dcdcdc ghostwhite f8f8ff gold ffd700
  goldenrod daa520 gray 808080 grey 808080 green 008000 greenyellow adff2f honeydew f0fff0 hotpink ff69b4 indianred
  cd5c5c indigo 4b0082 ivory fffff0 khaki f0e68c lavender e6e6fa lavenderblush fff0f5 lawngreen 7cfc00 lemonchiffon
  fffacd lightblue add8e6 lightcoral f08080 lightcyan e0ffff lightgoldenrodyellow fafad2 lightgray d3d3d3 lightgrey
  d3d3d3 lightgreen 90ee90 lightpink ffb6c1 lightsalmon ffa07a lightseagreen 20b2aa lightskyblue 87cefa
  lightslategray 778899 lightslategrey 778899 lightsteelblue b0c4de lightyellow ffffe0 lime 00ff00 limegreen 32cd32
  linen faf0e6 magenta ff00ff maroon 800000 mediumaquamarine 66cdaa mediumblue 0000cd mediumorchid ba55d3
  mediumpurple 9370db mediumseagreen 3cb371 mediumslateblue 7b68ee mediumspringgreen 00fa9a mediumturquoise 48d1cc
  mediumvioletred c71585 midnightblue 191970 mintcream f5fffa mistyrose ffe4e1 moccasin ffe4b5 navajowhite ffdead
  navy 000080 oldlace fdf5e6 olive 808000 olivedrab 6b8e23 orange ffa500 orangered ff4500 orchid da70d6 palegoldenrod
  eee8aa palegreen 98fb98 paleturquoise afeeee palevioletred db7093 papayawhip ffefd5 peachpuff ffdab9 peru cd853f
  pink ffc0cb plum dda0dd powderblue b0e0e6 purple 800080 red ff0000 rosybrown bc8f8f royalblue 4169e1 saddlebrown
  8b4513 salmon fa8072 sandybrown f4a460 seagreen 2e8b57 seashell fff5ee sienna a0522d silver c0c0c0 skyblue 87ceeb
  slateblue 6a5acd slategray 708090 slategrey 708090 snow fffafa springgreen 00ff7f steelblue 4682b4 tan d2b48c teal
  008080 thistle d8bfd8 tomato ff6347 turquoise 40e0d0 violet ee82ee wheat f5deb3 white ffffff whitesmoke f5f5f5
  yellow ffff00 yellowgreen 9acd32"

def readNamed : List String → List (String × Nat)
  | name :: digits :: rest => (name, ((readHex? digits).getD 0).toNat) :: readNamed rest
  | _ => []

def named : List (String × Nat) :=
  readNamed (Text.words namedTable)

def components (n : Nat) : List Int :=
  [(n / 65536 : Nat), (n / 256 % 256 : Nat), (n % 256 : Nat)]

def ofName (s : String) : Except Fault (List Int) :=
  match named.lookup (Text.lower s) with
  | some n => .ok (components n)
  | none => .error .value

def pieces (size : Nat) : Nat → List Char → List (List Char)
  | 0, _ => []
  | fuel + 1, cs => if cs.isEmpty then [] else cs.take size :: pieces size fuel (cs.drop size)

def ofHex (s : String) : Except Fault (List Int) :=
  let cs := s.toList.dropWhile (· == '#')
  let size := cs.length / 3
  if size == 0 then .error .value
  else (pieces size cs.length cs).mapM fun p =>
    match readHex? (String.ofList p) with
    | some n => .ok n
    | none => .error .value

def read? (color : Value) : Except Fault (Option (List Int)) :=
  match color with
  | .text s =>
    match s.toList with
    | [] => .ok none
    | '#' :: _ => (ofHex s).map some
    | _ => (ofName s).map some
  | .list [] | .dict [] => .ok none
  | .list _ => .error .member
  | .dict _ => .error .key
  | _ => .error .operands

def hexOf (rgb : List Value) : Except Fault String :=
  match rgb.map Value.whole? with
  | [some r, some g, some b] => .ok ("#" ++ hexText r 2 ++ hexText g 2 ++ hexText b 2)
  | _ => .error .operands

def rgbaText (parts : List Int) (alpha : Value) : Value :=
  .text ("rgba(" ++ String.join (parts.map fun n => toString n ++ ",") ++ alpha.printed ++ ")")

def toRgba (color alpha : Value) : Except Fault Value := do
  match ← read? color with
  | some parts => pure (rgbaText parts alpha)
  | none => pure .absent

def toHex (color : Value) : Except Fault Value :=
  match color with
  | .text s =>
    match s.toList with
    | [] => .ok .absent
    | '#' :: _ => .ok color
    | _ => do
      let parts ← ofName s
      pure (.text (← hexOf (parts.map Value.int)))
  | v => do
    let _ ← read? v
    pure .absent

def changed (rule : List Int → Int → Int) (color alpha : Value) : Except Fault Value := do
  if let .absent := color then return .absent
  match ← read? color with
  | some parts => pure (rgbaText (parts.map (rule parts)) alpha)
  | none => pure .absent

def reverse : Value → Value → Except Fault Value :=
  changed fun _ c => 255 - c

def extremes (parts : List Int) : Int × Int :=
  match parts with
  | [] => (0, 0)
  | c :: rest => (rest.foldl min c, rest.foldl max c)

def complement : Value → Value → Except Fault Value :=
  changed fun parts c => let (low, high) := extremes parts; low + high - c

def isHexDigit (c : Char) : Bool :=
  ('0' ≤ c && c ≤ '9') || ('a' ≤ c && c ≤ 'f') || ('A' ≤ c && c ≤ 'F')

def isHexColor (counts : List Nat) (s : String) : Bool :=
  match s.toList with
  | '#' :: cs => counts.contains cs.length && cs.all isHexDigit
  | _ => false

def isAmount (s : String) : Bool :=
  let cs := match s.toList.reverse with
    | '%' :: rest => rest.reverse
    | rest => rest.reverse
  !cs.isEmpty && cs.all fun c => Text.isDecimal c || c == '.'

def isColorFunction (s : String) : Bool :=
  ["rgb", "hsl", "hsv"].any fun f =>
    let body? := match s.toList.drop f.length with
      | 'a' :: '(' :: rest => some rest
      | '(' :: rest => some rest
      | _ => none
    s.startsWith f && match body? with
      | some rest =>
        match rest.reverse with
        | ')' :: inner =>
          let parts := (String.ofList inner.reverse).splitOn ","
          (parts.length == 3 || parts.length == 4) && parts.all isAmount
        | _ => false
      | none => false

def isFigureColor (v : Value) : Bool :=
  match v.plain with
  | .text s =>
    let s := Text.lower (String.ofList (s.toList.filter (· != ' ')))
    isHexColor [3, 6] s || isColorFunction s || (s.startsWith "var(--" && s.endsWith ")") ||
      s == "rebeccapurple" || (named.lookup s).isSome
  | _ => false

def canvasLetters : List String :=
  ["b", "g", "r", "c", "m", "y", "k", "w"]

def canvasNames : List String :=
  ["tab:blue", "tab:orange", "tab:green", "tab:red", "tab:purple", "tab:brown", "tab:pink", "tab:gray",
    "tab:grey", "tab:olive", "tab:cyan", "rebeccapurple", "none"]

/-- Whether a drawing accepts a colour: a name, a number to base sixteen, a shade of grey from zero to one,
    or a position in the cycle of colours. -/
def isCanvasColor (v : Value) : Bool :=
  match v.plain with
  | .text s =>
    let low := Text.lower s
    canvasLetters.contains s || (s.length != 1 && (canvasNames.contains low || (named.lookup low).isSome)) ||
      isHexColor [3, 4, 6, 8] s || isCycle s || isShade s
  | .absent => true
  | _ => false
where
  isCycle (s : String) : Bool :=
    match s.toList with
    | 'C' :: cs => !cs.isEmpty && cs.all Char.isDigit
    | _ => false
  isShade (s : String) : Bool :=
    match readFloat? s with
    | some x => decide (0.0 ≤ x) && decide (x ≤ 1.0)
    | none => false

end PineEngine.Chart.Color
