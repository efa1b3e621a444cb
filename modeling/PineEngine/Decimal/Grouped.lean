import PineEngine.Decimal.Notation

/-! # Numbers in groups of three digits

The digits before the point are divided by commas into groups of three.
-/

namespace PineEngine.Decimal

def groupReversed : List Char → List Char
  | a :: b :: c :: d :: rest => a :: b :: c :: ',' :: groupReversed (d :: rest)
  | cs => cs

def groupDigits (cs : List Char) : List Char :=
  (groupReversed cs.reverse).reverse

def groupText (s : String) : String :=
  let (sign, cs) := match s.toList with
    | '-' :: rest => (['-'], rest)
    | cs => ([], cs)
  String.ofList (sign ++ groupDigits (cs.takeWhile Char.isDigit) ++ cs.dropWhile Char.isDigit)

end PineEngine.Decimal
