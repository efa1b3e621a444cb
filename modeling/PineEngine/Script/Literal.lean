import PineEngine.Decimal.Notation
import PineEngine.Text.Quoted

/-! # Literals

The constants that a script can write.
-/

namespace PineEngine.Script

/-- A constant of the script text. A colour is a text that starts with a number sign. -/
inductive Literal where
  | int (n : Int)
  | float (x : Float)
  | bool (b : Bool)
  | text (s : String)
  deriving Inhabited

def Literal.shown : Literal → String
  | .int n => toString n
  | .float x => Decimal.showFloat x
  | .bool b => if b then "True" else "False"
  | .text s => Text.quoted s

def Literal.printed : Literal → String
  | .text s => s
  | l => l.shown

end PineEngine.Script
