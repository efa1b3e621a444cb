import PineEngine.Decimal.Shortest

/-! # How a number is written

The digits of a number are chosen elsewhere; here is where the point and the exponent go.
-/

namespace PineEngine.Decimal

structure Style where
  /-- The least leading exponent that is written without an exponent part. -/
  leastPositional : Int
  /-- The least leading exponent above it that is written with an exponent part. -/
  leastScientific : Int
  nan : String
  infinity : String

def Style.plain : Style := ⟨-4, 16, "nan", "inf"⟩

def Style.exchange : Style := ⟨-4, 16, "NaN", "Infinity"⟩

def exponentText (e : Int) : String :=
  let digits := toString e.natAbs
  (if e < 0 then "e-" else "e+") ++ (if digits.length < 2 then "0" ++ digits else digits)

def zeros (n : Nat) : String :=
  String.ofList (List.replicate n '0')

/-- The magnitude of a decimal: positional with at least one digit after the point, or scientific. -/
def Scaled.magnitude (d : Scaled) (style : Style) : String :=
  let digits := digitChars d.digits
  let lead : Int := d.exponent + digits.length - 1
  if d.digits == 0 then "0.0"
  else if style.leastPositional ≤ lead && lead < style.leastScientific then
    if 0 ≤ d.exponent then String.ofList digits ++ zeros d.exponent.toNat ++ ".0"
    else if 0 ≤ lead then
      let whole := (lead + 1).toNat
      String.ofList (digits.take whole) ++ "." ++ String.ofList (digits.drop whole)
    else "0." ++ zeros (-lead - 1).toNat ++ String.ofList digits
  else
    let body := match digits with
      | [c] => String.singleton c
      | c :: rest => String.ofList (c :: '.' :: rest)
      | [] => ""
    body ++ exponentText lead

def floatText (x : Float) (style : Style) : String :=
  match shortest? x with
  | some d => (if d.negative then "-" else "") ++ d.magnitude style
  | none => if x.isNaN then style.nan else if x < 0 then "-" ++ style.infinity else style.infinity

def showFloat (x : Float) : String :=
  floatText x .plain

end PineEngine.Decimal
