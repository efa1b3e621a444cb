import PineEngine.Decimal.Power

/-! # Binary floating point, exactly

A finite double is a whole number times a power of two. This module reads that pair off the bits, and
rounds an exact quotient of whole numbers to the nearest double, so that decimal text, remainders and
comparisons can be decided in exact arithmetic.
-/

namespace PineEngine.Decimal

/-- The magnitude `mantissa * 2 ^ exponent` of a finite double, with its sign. -/
structure Binary where
  negative : Bool
  mantissa : Nat
  exponent : Int
  deriving Repr, DecidableEq

/-- The sign, mantissa and exponent of a finite double. Infinities and NaN give `none`. -/
def Binary.ofFloat? (x : Float) : Option Binary :=
  let bits : Nat := x.toBits.toNat
  let negative : Bool := powTwo 63 ≤ bits
  let biased : Nat := bits / powTwo 52 % powTwo 11
  let fraction : Nat := bits % powTwo 52
  if biased == 2047 then none
  else if biased == 0 then some ⟨negative, fraction, -1074⟩
  else some ⟨negative, fraction + powTwo 52, (biased : Int) - 1075⟩

def floatOfBits (negative : Bool) (bits : Nat) : Float :=
  Float.ofBits (UInt64.ofNat (if negative then bits + powTwo 63 else bits))

def infinityBits : Nat := 2047 * powTwo 52

/-- `num / den` rounded to a whole number, a half going to the even neighbour. -/
def roundHalfEven (num den : Nat) : Nat :=
  let q := num / den
  let r := num % den
  if 2 * r < den then q
  else if den < 2 * r then q + 1
  else if q % 2 == 0 then q else q + 1

/-- The bits of the double nearest to `num / den`. Values past the largest double give infinity. -/
def quotientBits (num den : Nat) : Nat :=
  if num == 0 then 0
  else
    -- the quotient lies in [2 ^ (e - 1), 2 ^ (e + 1))
    let e : Int := (num.log2 : Int) - den.log2
    let scale (k : Int) : Nat × Nat :=
      if 0 ≤ k then (num, den * powTwo k.toNat) else (num * powTwo (-k).toNat, den)
    let place (unit : Int) : Nat :=
      let (n, d) := scale unit
      roundHalfEven n d
    let first := max (e - 53) (-1074)
    let m := place first
    let unit := if powTwo 53 < m then first + 1 else first
    let m := place unit
    let (m, unit) := if m == powTwo 53 then (powTwo 52, unit + 1) else (m, unit)
    if m < powTwo 52 then m
    else if 971 < unit then infinityBits
    else (unit + 1075).toNat * powTwo 52 + (m - powTwo 52)

def quotient (negative : Bool) (num den : Nat) : Float :=
  floatOfBits negative (quotientBits num den)

/-- The double nearest to a whole number; `none` if it is too large. -/
def floatOfInt? (n : Int) : Option Float :=
  let bits := quotientBits n.natAbs 1
  if bits == infinityBits then none else some (floatOfBits (n < 0) bits)

/-- The exact value of a finite double as a quotient, `den` being a power of two. -/
def Binary.ratio (b : Binary) : Int × Nat :=
  let m : Int := if b.negative then -(b.mantissa : Int) else b.mantissa
  if 0 ≤ b.exponent then (m * powTwo b.exponent.toNat, 1) else (m, powTwo (-b.exponent).toNat)

def truncate? (x : Float) : Option Int :=
  (Binary.ofFloat? x).map fun b => let (n, d) := b.ratio; Int.tdiv n d

/-- Order of a whole number and a double, in exact arithmetic; `none` for NaN. -/
def compareInt (n : Int) (x : Float) : Option Ordering :=
  match Binary.ofFloat? x with
  | some b => let (p, q) := b.ratio; some (compare (n * q) p)
  | none => if x.isNaN then none else some (if x > 0 then .lt else .gt)

/-- The remainder of `x / y` with the sign of `x`, exactly; NaN if `x` is not finite or `y` is zero. -/
def remainderTrunc (x y : Float) : Float :=
  match Binary.ofFloat? x, Binary.ofFloat? y with
  | some a, some b =>
    if b.mantissa == 0 then 0.0 / 0.0
    else
      let unit := min a.exponent b.exponent
      let m := a.mantissa * powTwo (a.exponent - unit).toNat % (b.mantissa * powTwo (b.exponent - unit).toNat)
      if 0 ≤ unit then quotient a.negative (m * powTwo unit.toNat) 1
      else quotient a.negative m (powTwo (-unit).toNat)
  | some _, none => if y.isNaN then y else x
  | none, _ => 0.0 / 0.0

/-- The remainder of `x / y` with the sign of `y`. A zero remainder takes the sign of `y`. -/
def remainderFloor (x y : Float) : Float :=
  let r := remainderTrunc x y
  if r.isNaN then r
  else if r == 0.0 then (if y < 0.0 || (1.0 / y) < 0.0 then -0.0 else 0.0)
  else if (y < 0.0) != (r < 0.0) then r + y
  else r

end PineEngine.Decimal
