import PineEngine.Column

/-! # Libraries of indicators

Averages, extremes and the like are computed by a library outside the engine. A library takes columns and
a length, and gives a column. Columns are values, so that no library changes what it is given.
-/

namespace PineEngine.Builtin

inductive LibraryFunction where
  | ema | sma | wma
  | highest | lowest
  | linreg | stdev | stoch | rsi
  deriving DecidableEq, Repr

inductive LibraryFault where
  /-- None of the numbers that it was given is a number. -/
  | noNumbers
  | other (e : Fault)

abbrev Library := LibraryFunction → List Column → Int → Except LibraryFault Column

def Library.empty : Library :=
  fun _ _ _ => .error (.other .unimplemented)

end PineEngine.Builtin
