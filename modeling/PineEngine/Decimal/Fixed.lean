import PineEngine.Decimal.Notation

/-! # A fixed number of digits

Doubles written with a given number of places or of significant digits. The exact value of the double is
rounded, a half going to the even neighbour.
-/

namespace PineEngine.Decimal

def magnitude? (x : Float) : Option (Bool × Nat × Nat) :=
  (Binary.ofFloat? x).map fun b => let (n, d) := b.ratio; (b.negative, n.natAbs, d)

def withPoint (digits places : Nat) : String :=
  if places == 0 then toString digits
  else
    let cs := digitChars digits
    let cs := List.replicate (places + 1 - cs.length) '0' ++ cs
    let whole := cs.length - places
    String.ofList (cs.take whole) ++ "." ++ String.ofList (cs.drop whole)

def fixedMagnitude (num den places : Nat) : String :=
  withPoint (roundHalfEven (num * powTen places) den) places

/-- The magnitude `num / den` rounded to `count` significant digits: the digits and the exponent of the
    first. -/
def significant (num den count : Nat) : Nat × Int :=
  if num == 0 then (0, 0)
  else
    let lead := leadingExponent num den
    let shift : Int := (count : Int) - 1 - lead
    let digits :=
      if 0 ≤ shift then roundHalfEven (num * powTen shift.toNat) den
      else roundHalfEven num (den * powTen (-shift).toNat)
    if digits == powTen count then (powTen (count - 1), lead + 1) else (digits, lead)

def scientificMagnitude (num den places : Nat) : String :=
  let (digits, lead) := significant num den (places + 1)
  withPoint digits places ++ exponentText lead

def trimPlaces (s : String) : String :=
  let cs := s.toList
  if cs.contains '.' then
    let kept := cs.reverse.dropWhile (· == '0')
    String.ofList (match kept with
      | '.' :: rest => rest.reverse
      | kept => kept.reverse)
  else s

/-- The magnitude with `count` significant digits, positional where that is shorter; zeros at the end
    are kept only if `full`. -/
def generalMagnitude (num den count : Nat) (full : Bool) : String :=
  let count := max 1 count
  let (digits, lead) := significant num den count
  let trim (s : String) : String := if full then s else trimPlaces s
  if num == 0 then trim (withPoint 0 (count - 1))
  else if -4 ≤ lead && lead < count then
    let places := ((count : Int) - 1 - lead).toNat
    trim (if 0 ≤ lead then withPoint digits places
      else withPoint digits places)
  else trim (withPoint digits (count - 1)) ++ exponentText lead

def fixedText (x : Float) (places : Nat) : String :=
  match magnitude? x with
  | some (negative, n, d) => (if negative then "-" else "") ++ fixedMagnitude n d places
  | none => showFloat x

def roundPlaces (x : Float) (places : Nat) : Float :=
  match magnitude? x with
  | some (negative, n, d) => quotient negative (roundHalfEven (n * powTen places) d) (powTen places)
  | none => x

end PineEngine.Decimal
