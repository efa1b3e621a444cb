import PineEngine.Decimal.Binary
import PineEngine.Text.Blank
import PineEngine.Text.Digit

/-! # Reading numbers

Whole numbers and decimals in text: blanks around them, a sign, digits of any script, and single low
lines between digits.
-/

namespace PineEngine.Decimal

open Text

def maxDigits : Nat := 4300

def startsWithDigit : List Char → Bool
  | [] => false
  | c :: _ => isDecimal c

def takeDigits : List Char → List Nat × List Char
  | [] => ([], [])
  | c :: rest =>
    match digitValue? c, rest with
    | none, rest => ([], c :: rest)
    | some d, '_' :: tail =>
      if startsWithDigit tail then
        let (ds, cs) := takeDigits tail
        (d :: ds, cs)
      else ([d], '_' :: tail)
    | some d, rest =>
      let (ds, cs) := takeDigits rest
      (d :: ds, cs)

def ofDigits (ds : List Nat) : Nat :=
  ds.foldl (fun n d => 10 * n + d) 0

def takeSign : List Char → Bool × List Char
  | '-' :: rest => (true, rest)
  | '+' :: rest => (false, rest)
  | cs => (false, cs)

def readInt? (s : String) : Option Int :=
  let (negative, cs) := takeSign (trim s.toList)
  match takeDigits cs with
  | (ds, []) =>
    if ds.isEmpty || maxDigits < ds.length then none
    else some (if negative then -(ofDigits ds : Int) else ofDigits ds)
  | _ => none

def floatOfDecimal (negative : Bool) (digits : Nat) (exponent : Int) : Float :=
  if digits == 0 then floatOfBits negative 0
  else
    let size : Int := (Nat.toDigits 10 digits).length + exponent
    if 400 < size then floatOfBits negative infinityBits
    else if size < -400 then floatOfBits negative 0
    else if 0 ≤ exponent then quotient negative (digits * powTen exponent.toNat) 1
    else quotient negative digits (powTen (-exponent).toNat)

def sameLetters (cs : List Char) (word : String) : Bool :=
  cs.map Char.toLower == word.toList

def readMagnitude? (negative : Bool) (cs : List Char) : Option Float :=
  if sameLetters cs "inf" || sameLetters cs "infinity" then some (floatOfBits negative infinityBits)
  else if sameLetters cs "nan" then some (0.0 / 0.0)
  else
    let (whole, cs) := takeDigits cs
    let (fraction, cs) := match cs with
      | '.' :: rest => takeDigits rest
      | _ => ([], cs)
    if whole.isEmpty && fraction.isEmpty then none
    else
      let digits := ofDigits (whole ++ fraction)
      let scale : Int := -(fraction.length : Int)
      match cs with
      | [] => some (floatOfDecimal negative digits scale)
      | e :: rest =>
        if e == 'e' || e == 'E' then
          let (down, cs) := takeSign rest
          match takeDigits cs with
          | (ds, []) =>
            if ds.isEmpty then none
            else
              let n : Int := ofDigits ds
              some (floatOfDecimal negative digits (scale + if down then -n else n))
          | _ => none
        else none

def readFloat? (s : String) : Option Float :=
  let (negative, cs) := takeSign (trim s.toList)
  readMagnitude? negative cs

end PineEngine.Decimal
