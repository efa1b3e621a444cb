import PineEngine.Json

/-! # JSON over several lines

Each item and each field on a line of its own, two columns further right than what holds it. Characters
beyond ASCII are written as escapes of their UTF-16 units.
-/

namespace PineEngine.Json

/-- A character as an escape of four hexadecimal digits, or two such for a character of two units. -/
def unitEscapes (c : Char) : List Char :=
  let unit (n : Nat) : List Char :=
    let digits := Nat.toDigits 16 n
    '\\' :: 'u' :: (List.replicate (4 - digits.length) '0' ++ digits)
  let n := c.toNat
  if n < 0x10000 then unit n
  else unit (0xd800 + (n - 0x10000) / 0x400) ++ unit (0xdc00 + (n - 0x10000) % 0x400)

def escapeAscii (c : Char) : List Char :=
  if c == '\x08' then ['\\', 'b']
  else if c == '\x0c' then ['\\', 'f']
  else if c.toNat < 127 then escapeChar c
  else unitEscapes c

def quoteAscii (s : String) : String :=
  "\"" ++ String.ofList (s.toList.flatMap escapeAscii) ++ "\""

def lineStart (depth : Nat) : String :=
  "\n" ++ String.ofList (List.replicate (2 * depth) ' ')

/-- Items between brackets, each on a line of its own; nothing between them if there are none. -/
def enclosed (start stop : String) (depth : Nat) (items : List String) : String :=
  if items.isEmpty then start ++ stop
  else start ++ lineStart (depth + 1) ++ String.intercalate ("," ++ lineStart (depth + 1)) items ++
    lineStart depth ++ stop

mutual

def indentedAt (depth : Nat) : Json → String
  | .null => "null"
  | .bool b => if b then "true" else "false"
  | .int n => toString n
  | .float x => Decimal.floatText x .exchange
  | .str s => quoteAscii s
  | .arr items => enclosed "[" "]" depth (indentedItems (depth + 1) items)
  | .obj fields => enclosed "\x7b" "\x7d" depth (indentedFields (depth + 1) fields)

def indentedItems (depth : Nat) : List Json → List String
  | [] => []
  | j :: rest => j.indentedAt depth :: indentedItems depth rest

def indentedFields (depth : Nat) : List (String × Json) → List String
  | [] => []
  | (k, j) :: rest => (quoteAscii k ++ ": " ++ j.indentedAt depth) :: indentedFields depth rest

end

def indented (j : Json) : String :=
  j.indentedAt 0

end PineEngine.Json
