import PineEngine.Decimal.Read

/-! # Numbers to base sixteen

They are read with blanks around them, a sign, a mark for the base and single low lines between digits, and
written with small letters.
-/

namespace PineEngine.Decimal

open Text

def hexValue? (c : Char) : Option Nat :=
  match digitValue? c with
  | some d => some d
  | none =>
    if 'a' ≤ c && c ≤ 'f' then some (c.toNat - 'a'.toNat + 10)
    else if 'A' ≤ c && c ≤ 'F' then some (c.toNat - 'A'.toNat + 10)
    else none

/-- The number that digits write, single low lines between them allowed; all characters must be used. -/
def hexDigits? (acc : Nat) : List Char → Option Nat
  | [] => none
  | c :: rest => do
    let n := 16 * acc + (← hexValue? c)
    match rest with
    | [] => some n
    | '_' :: more => hexDigits? n more
    | more => hexDigits? n more

def dropHexMark : List Char → List Char
  | '0' :: x :: rest =>
    if x == 'x' || x == 'X' then
      match rest with
      | '_' :: more => more
      | rest => rest
    else '0' :: x :: rest
  | cs => cs

def readHex? (s : String) : Option Int :=
  let (negative, cs) := takeSign (trim s.toList)
  (hexDigits? 0 (dropHexMark cs)).map fun n => if negative then -(n : Int) else n

def hexText (n : Int) (width : Nat) : String :=
  let digits := String.ofList (Nat.toDigits 16 n.natAbs)
  let sign := if n < 0 then "-" else ""
  sign ++ String.ofList (List.replicate (width - sign.length - digits.length) '0') ++ digits

end PineEngine.Decimal
