import PineEngine.Decimal.Binary

/-! # The shortest decimal of a double

Among the decimals that read back as a given double, the one with the fewest digits; among those of
equal length the nearest, and of two equally near the one whose last digit is even.
-/

namespace PineEngine.Decimal

/-- The decimal `digits * 10 ^ exponent`, with its sign. -/
structure Scaled where
  negative : Bool
  digits : Nat
  exponent : Int
  deriving Repr, DecidableEq

def digitChars (n : Nat) : List Char :=
  Nat.toDigits 10 n

def digitCount (n : Nat) : Nat :=
  (digitChars n).length

/-- The exponent `e` with `10 ^ e ≤ num / den < 10 ^ (e + 1)`, for a positive quotient. -/
def leadingExponent (num den : Nat) : Int :=
  if den ≤ num then (digitCount (num / den) : Int) - 1
  else
    let n := digitCount (den / num)
    if den ≤ num * powTen (n - 1) then 1 - (n : Int) else -(n : Int)

structure Interval where
  low : Nat
  value : Nat
  high : Nat
  den : Nat
  /-- Whether the end points themselves round to the double. -/
  closed : Bool

def Interval.ofBinary (b : Binary) : Interval :=
  let below := if b.mantissa == powTwo 52 && -1074 < b.exponent then 1 else 2
  let unit := b.exponent - 2
  let (mul, den) := if 0 ≤ unit then (powTwo unit.toNat, 1) else (1, powTwo (-unit).toNat)
  ⟨(4 * b.mantissa - below) * mul, 4 * b.mantissa * mul, (4 * b.mantissa + 2) * mul, den,
    b.mantissa % 2 == 0⟩

def Interval.holds (i : Interval) (num den : Nat) : Bool :=
  let x := num * i.den
  if i.closed then i.low * den ≤ x && x ≤ i.high * den else i.low * den < x && x < i.high * den

/-- The best multiple of `10 ^ exponent` inside the interval, if there is one. -/
def Interval.pick? (i : Interval) (exponent : Int) : Option Nat :=
  let (up, down) := if 0 ≤ exponent then (powTen exponent.toNat, 1) else (1, powTen (-exponent).toNat)
  let lower := i.value * down / (i.den * up)
  let inside (k : Nat) : Bool := i.holds (k * up) down
  let distance (k : Nat) : Int := (k * up * i.den : Int) - (i.value * down : Int)
  match inside lower, inside (lower + 1) with
  | true, false => some lower
  | false, true => some (lower + 1)
  | false, false => none
  | true, true =>
    let a := (distance lower).natAbs
    let b := (distance (lower + 1)).natAbs
    some (if a < b then lower else if b < a then lower + 1 else if lower % 2 == 0 then lower else lower + 1)

/-- A decimal without zeros at its end, for at most `fuel` zeros. -/
def dropZeros (digits : Nat) (exponent : Int) : Nat → Nat × Int
  | 0 => (digits, exponent)
  | fuel + 1 =>
    if digits % 10 == 0 && digits != 0 then dropZeros (digits / 10) (exponent + 1) fuel
    else (digits, exponent)

/-- The shortest decimal of a finite double; `none` for infinities and NaN. -/
def shortest? (x : Float) : Option Scaled :=
  (Binary.ofFloat? x).map fun b =>
    if b.mantissa == 0 then ⟨b.negative, 0, 0⟩
    else
      let i := Interval.ofBinary b
      let lead := leadingExponent i.value i.den
      let found := (List.range 17).findSome? fun (n : Nat) =>
        let exponent := lead - (n : Int)
        (i.pick? exponent).map fun k => dropZeros k exponent 20
      let (digits, exponent) := found.getD (0, 0)
      ⟨b.negative, digits, exponent⟩

end PineEngine.Decimal
