import PineEngine.Text.Printable

/-! # Quoted text

How a text is shown inside a message: in single quotes, or in double quotes if it holds a single quote
and no double one. Characters that cannot be printed are written as escapes.
-/

namespace PineEngine.Text

/-- The lower-case hexadecimal digits of `n`, at least `width` of them. -/
def hexText (n width : Nat) : String :=
  let digits := Nat.toDigits 16 n
  String.ofList (List.replicate (width - digits.length) '0' ++ digits)

def quoteChar (quote c : Char) : String :=
  let n := c.toNat
  if c == quote || c == '\\' then String.ofList ['\\', c]
  else if c == '\n' then "\\n"
  else if c == '\r' then "\\r"
  else if c == '\t' then "\\t"
  else if isPrintable c then String.singleton c
  else if n < 0x100 then "\\x" ++ hexText n 2
  else if n < 0x10000 then "\\u" ++ hexText n 4
  else "\\U" ++ hexText n 8

def quoted (s : String) : String :=
  let cs := s.toList
  let quote := if cs.contains '\'' && !cs.contains '"' then '"' else '\''
  String.singleton quote ++ String.join (cs.map (quoteChar quote)) ++ String.singleton quote

end PineEngine.Text
