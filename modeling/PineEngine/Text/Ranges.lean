/-! # Sorted ranges of code points

A character class is given as an array of closed ranges in ascending order. Membership is decided by
bisection, so a class with several hundred ranges costs about ten comparisons.
-/

namespace PineEngine.Text

abbrev Ranges := Array (Nat × Nat)

def Ranges.ofRuns (counts : List Nat) : Ranges :=
  (go 0 counts).toArray
where
  go (start : Nat) : List Nat → List (Nat × Nat)
    | out :: inside :: rest => (start + out, start + out + inside - 1) :: go (start + out + inside) rest
    | _ => []

/-- Bisection for the range that may hold `n`, between the positions `lo` and `hi`. -/
def Ranges.search (rs : Ranges) (n lo : Nat) : Nat → Bool
  | 0 => false
  | gap + 1 =>
    let mid := lo + gap / 2
    match rs[mid]? with
    | none => false
    | some (a, b) =>
      if n < a then rs.search n lo (gap / 2)
      else if b < n then rs.search n (mid + 1) (gap - gap / 2)
      else true
termination_by gap => gap

def Ranges.holds (rs : Ranges) (n : Nat) : Bool :=
  rs.search n 0 rs.size

end PineEngine.Text
