/-! # Powers of two and of ten

The units of binary and of decimal numbers.
-/

namespace PineEngine.Decimal

def powTwo (n : Nat) : Nat :=
  Nat.pow 2 n

def powTen (n : Nat) : Nat :=
  Nat.pow 10 n

theorem powTwo_succ (n : Nat) : powTwo (n + 1) = powTwo n * 2 :=
  rfl

end PineEngine.Decimal
