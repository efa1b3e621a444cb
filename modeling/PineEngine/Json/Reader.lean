import PineEngine.Json
import PineEngine.Decimal.Read

/-! # Reading exchanged data

Every step of the reader takes at least one character, so a budget of one step per character never runs
out on its own. Beyond the standard format the words `NaN`, `Infinity` and `-Infinity` are read, and the
last of several fields with one key wins.
-/

namespace PineEngine.Json

def skipBlanks (cs : List Char) : List Char :=
  cs.dropWhile fun c => c == ' ' || c == '\t' || c == '\n' || c == '\r'

def hexDigit? (c : Char) : Option Nat :=
  if '0' ≤ c && c ≤ '9' then some (c.toNat - '0'.toNat)
  else if 'a' ≤ c && c ≤ 'f' then some (c.toNat - 'a'.toNat + 10)
  else if 'A' ≤ c && c ≤ 'F' then some (c.toNat - 'A'.toNat + 10)
  else none

def hex4? : List Char → Option (Nat × List Char)
  | a :: b :: c :: d :: rest => do
    let a ← hexDigit? a
    let b ← hexDigit? b
    let c ← hexDigit? c
    let d ← hexDigit? d
    some (((a * 16 + b) * 16 + c) * 16 + d, rest)
  | _ => none

def escape? : List Char → Option (Char × List Char)
  | '"' :: rest => some ('"', rest)
  | '\\' :: rest => some ('\\', rest)
  | '/' :: rest => some ('/', rest)
  | 'b' :: rest => some (Char.ofNat 8, rest)
  | 'f' :: rest => some (Char.ofNat 12, rest)
  | 'n' :: rest => some ('\n', rest)
  | 'r' :: rest => some ('\r', rest)
  | 't' :: rest => some ('\t', rest)
  | 'u' :: rest => do
    let (high, rest) ← hex4? rest
    if 0xd800 ≤ high && high < 0xdc00 then
      match rest with
      | '\\' :: 'u' :: tail =>
        match hex4? tail with
        | some (low, after) =>
          if 0xdc00 ≤ low && low < 0xe000 then
            some (Char.ofNat (0x10000 + (high - 0xd800) * 0x400 + (low - 0xdc00)), after)
          else some (Char.ofNat 0xfffd, rest)
        | none => some (Char.ofNat 0xfffd, rest)
      | _ => some (Char.ofNat 0xfffd, rest)
    else if 0xdc00 ≤ high && high < 0xe000 then some (Char.ofNat 0xfffd, rest)
    else some (Char.ofNat high, rest)
  | _ => none

/-- The rest of a string after its opening quote; `acc` holds the characters read, reversed. -/
def string? (acc : List Char) : Nat → List Char → Option (String × List Char)
  | 0, _ => none
  | _ + 1, [] => none
  | _ + 1, '"' :: rest => some (String.ofList acc.reverse, rest)
  | fuel + 1, '\\' :: rest => do
    let (c, rest) ← escape? rest
    string? (c :: acc) fuel rest
  | fuel + 1, c :: rest => if c.toNat < 32 then none else string? (c :: acc) fuel rest

def digits (cs : List Char) : List Char × List Char :=
  (cs.takeWhile Char.isDigit, cs.dropWhile Char.isDigit)

def number? (cs : List Char) : Option (Json × List Char) :=
  let (negative, body) := match cs with
    | '-' :: rest => (true, rest)
    | _ => (false, cs)
  let (whole, rest) := match digits body with
    | ('0' :: _, _) => (['0'], body.drop 1)
    | found => found
  if whole.isEmpty then none
  else
    let (fraction, rest) := match rest with
      | '.' :: tail =>
        let (ds, after) := digits tail
        if ds.isEmpty then ([], rest) else (ds, after)
      | _ => ([], rest)
    let (power, rest) : Option Int × List Char := match rest with
      | e :: tail =>
        if e == 'e' || e == 'E' then
          let (down, tail) := Decimal.takeSign tail
          let (ds, after) := digits tail
          if ds.isEmpty then (none, rest)
          else
            let n : Int := Decimal.ofDigits (ds.map fun c => c.toNat - '0'.toNat)
            (some (if down then -n else n), after)
        else (none, rest)
      | [] => (none, rest)
    let mantissa := Decimal.ofDigits ((whole ++ fraction).map fun c => c.toNat - '0'.toNat)
    if fraction.isEmpty && power.isNone then
      if Decimal.maxDigits < whole.length then none
      else some (.int (if negative then -(mantissa : Int) else mantissa), rest)
    else
      some (.float (Decimal.floatOfDecimal negative mantissa (power.getD 0 - fraction.length)), rest)

def word? (word : String) (cs : List Char) : Option (List Char) :=
  let w := word.toList
  if w.isPrefixOf cs then some (cs.drop w.length) else none

mutual

def value? : Nat → List Char → Option (Json × List Char)
  | 0, _ => none
  | fuel + 1, cs =>
    match skipBlanks cs with
    | '"' :: rest => (string? [] fuel rest).map fun (s, rest) => (.str s, rest)
    | '[' :: rest =>
      match skipBlanks rest with
      | ']' :: rest => some (.arr [], rest)
      | rest => (items? fuel rest).map fun (js, rest) => (.arr js, rest)
    | '\x7b' :: rest =>
      match skipBlanks rest with
      | '\x7d' :: rest => some (.obj [], rest)
      | rest => fields? [] fuel rest
    | cs =>
      ((word? "null" cs).map fun rest => (.null, rest)) <|>
      ((word? "true" cs).map fun rest => (.bool true, rest)) <|>
      ((word? "false" cs).map fun rest => (.bool false, rest)) <|>
      ((word? "NaN" cs).map fun rest => (.float (0.0 / 0.0), rest)) <|>
      ((word? "Infinity" cs).map fun rest => (.float (1.0 / 0.0), rest)) <|>
      ((word? "-Infinity" cs).map fun rest => (.float (-1.0 / 0.0), rest)) <|>
      number? cs

def items? : Nat → List Char → Option (List Json × List Char)
  | 0, _ => none
  | fuel + 1, cs => do
    let (j, rest) ← value? fuel cs
    match skipBlanks rest with
    | ',' :: rest =>
      let (js, rest) ← items? fuel rest
      some (j :: js, rest)
    | ']' :: rest => some ([j], rest)
    | _ => none

def fields? (acc : List (String × Json)) : Nat → List Char → Option (Json × List Char)
  | 0, _ => none
  | fuel + 1, cs => do
    match skipBlanks cs with
    | '"' :: rest =>
      let (key, rest) ← string? [] fuel rest
      match skipBlanks rest with
      | ':' :: rest =>
        let (j, rest) ← value? fuel rest
        let acc := setField key j acc
        match skipBlanks rest with
        | ',' :: rest => fields? acc fuel rest
        | '\x7d' :: rest => some (.obj acc, rest)
        | _ => none
      | _ => none
    | _ => none

end

def read? (s : String) : Option Json :=
  let cs := s.toList
  match value? (2 * cs.length + 2) cs with
  | some (j, rest) => if (skipBlanks rest).isEmpty then some j else none
  | none => none

end PineEngine.Json
