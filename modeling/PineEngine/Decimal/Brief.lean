import PineEngine.Decimal.Fixed
import PineEngine.Text.Pad

/-! # Doubles in a row

How doubles are written side by side: with the fewest digits that read back but at most eight places, and all
with their points below each other. If they differ much in size, all of them are written with an exponent.
-/

namespace PineEngine.Decimal

open Text

def briefPlaces : Nat := 8

def splitPoint (s : String) : String × String :=
  match s.splitOn "." with
  | [a, b] => (a, b)
  | _ => (s, "")

structure Parts where
  whole : String
  /-- What stands behind the point, without zeros at its end. -/
  places : String
  /-- The exponent with its sign and at least two digits. -/
  exponent : Int := 0

def trimZeros (s : String) : String :=
  String.ofList (s.toList.reverse.dropWhile (· == '0')).reverse

def signText (negative : Bool) : String :=
  if negative then "-" else ""

def Parts.positional? (x : Float) : Option Parts := do
  let d ← shortest? x
  let (_, n, den) ← magnitude? x
  let places := (-d.exponent).toNat
  let (whole, rest) := splitPoint (fixedMagnitude n den (min places briefPlaces))
  pure ⟨signText d.negative ++ whole, trimZeros rest, 0⟩

def Parts.scientific? (x : Float) : Option Parts := do
  let d ← shortest? x
  let (_, n, den) ← magnitude? x
  let (digits, lead) := significant n den (min (digitCount d.digits) (briefPlaces + 1))
  match digitChars digits with
  | c :: rest => pure ⟨signText d.negative ++ String.singleton c, trimZeros (String.ofList rest), lead⟩
  | [] => none

/-- Whether doubles are written with exponents: if one is large or small, or if they are far apart. -/
def needExponent (xs : List Float) : Bool :=
  let sizes := (xs.filter fun x => !(x == 0.0)).map Float.abs
  match sizes with
  | [] => false
  | s :: rest =>
    let most := rest.foldl (fun a b => if a < b then b else a) s
    let least := rest.foldl (fun a b => if b < a then b else a) s
    1.0e8 ≤ most || least < 0.0001 || 1000.0 < most / least

def exponentDigits (e : Int) : String :=
  let digits := toString e.natAbs
  if digits.length < 2 then "0" ++ digits else digits

def rowTexts (xs : List Float) : List String :=
  let finite := xs.filter Float.isFinite
  let exponents := needExponent finite
  let parts := finite.filterMap fun x => if exponents then Parts.scientific? x else Parts.positional? x
  let left := longest (parts.map (·.whole))
  let places := longest (parts.map (·.places))
  let size := longest (parts.map fun p => exponentDigits p.exponent)
  let right := if exponents then places + 2 + size else places
  let other := xs.filter fun x => !x.isFinite
  let sunk := if other.any fun x => x < 0 then 1 else 0
  let left := if other.isEmpty then left else max left (3 + sunk - (right + 1))
  xs.map fun x =>
    match (if exponents then Parts.scientific? x else Parts.positional? x) with
    | none => padStart (left + right + 1) (floatText x .plain)
    | some p =>
      let body := padStart left p.whole ++ "."
      if exponents then
        let digits := exponentDigits p.exponent
        body ++ padEnd '0' places p.places ++ (if p.exponent < 0 then "e-" else "e+") ++
          String.ofList (List.replicate (size - digits.length) '0') ++ digits
      else body ++ padEnd ' ' places p.places

end PineEngine.Decimal
