/-! # Widths

Texts filled up to a width.
-/

namespace PineEngine.Text

def longest (ss : List String) : Nat :=
  (ss.map String.length).foldl max 0

def padStart (width : Nat) (s : String) : String :=
  String.ofList (List.replicate (width - s.length) ' ') ++ s

def padEnd (fill : Char) (width : Nat) (s : String) : String :=
  s ++ String.ofList (List.replicate (width - s.length) fill)

def dropEnd (s : String) : String :=
  String.ofList (s.toList.reverse.dropWhile (· == ' ')).reverse

end PineEngine.Text
