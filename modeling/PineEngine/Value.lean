import PineEngine.Decimal.Notation
import PineEngine.Text.Quoted

/-! # Values

What a script computes with. Numbers that a script writes are exact whole numbers and doubles; the cells
of a series are machine numbers of a fixed width. A series is a reference into the store of series, so
that two variables can hold the same one.
-/

namespace PineEngine

inductive Width where
  | byte
  | long
  | unsigned
  deriving DecidableEq, Repr

/-- A machine number, truth value or text, as read from a series. -/
inductive Cell where
  | bool (b : Bool)
  | int (w : Width) (n : Int)
  | float (x : Float)
  | text (s : String)
  deriving Inhabited

structure SeriesRef where
  id : Nat
  deriving DecidableEq, Repr, Inhabited

inductive Value where
  | absent
  | bool (b : Bool)
  | int (n : Int)
  | float (x : Float)
  | text (s : String)
  | list (items : List Value)
  | dict (fields : List (String × Value))
  | cell (c : Cell)
  | series (ref : SeriesRef)
  | definition (id : Nat)
  /-- The value of a constant that is known but has no meaning yet. -/
  | unsupported
  deriving Inhabited

namespace Width

def modulus : Width → Nat
  | byte => 256
  | long => 18446744073709551616
  | unsigned => 18446744073709551616

def least : Width → Int
  | byte => -128
  | long => -9223372036854775808
  | unsigned => 0

/-- The value of a width that agrees with a number modulo the number of values. -/
def wrap (w : Width) (n : Int) : Int :=
  (n - w.least) % w.modulus + w.least

def holds (w : Width) (n : Int) : Bool :=
  w.least ≤ n && n < w.least + w.modulus

def label : Width → String
  | byte => "int8"
  | long => "int64"
  | unsigned => "uint64"

end Width

namespace Cell

def typeName : Cell → String
  | bool _ => "bool"
  | int w _ => w.label
  | float _ => "float64"
  | text _ => "str_"

def printed : Cell → String
  | bool b => if b then "True" else "False"
  | int _ n => toString n
  | float x => Decimal.showFloat x
  | text s => s

def isTrue : Cell → Bool
  | bool b => b
  | int _ n => n != 0
  | float x => !(x == 0.0)
  | text s => !s.isEmpty

end Cell

namespace Value

/-- The name of the kind of a value in messages; a series shows the name it is given. -/
def typeName (seriesName : String) : Value → String
  | absent => "NoneType"
  | bool _ => "bool"
  | int _ => "int"
  | float _ => "float"
  | text _ => "str"
  | list _ => "list"
  | dict _ => "dict"
  | cell c => c.typeName
  | series _ => seriesName
  | definition _ => "VarDefNode"
  | unsupported => "type"

def typeShown : Value → String
  | cell c => "<class 'numpy." ++ c.typeName ++ "'>"
  | definition _ => "<class 'pine.vm.node.VarDefNode'>"
  | v => "<class '" ++ v.typeName "pine.vm.helper.Series" ++ "'>"

mutual

def shown : Value → String
  | absent => "None"
  | bool b => if b then "True" else "False"
  | int n => toString n
  | float x => Decimal.showFloat x
  | text s => Text.quoted s
  | list items => "[" ++ String.intercalate ", " (shownItems items) ++ "]"
  | dict fields => "\x7b" ++ String.intercalate ", " (shownFields fields) ++ "\x7d"
  | cell (.bool b) => if b then "np.True_" else "np.False_"
  | cell (.int w n) => "np." ++ w.label ++ "(" ++ toString n ++ ")"
  | cell (.float x) => "np.float64(" ++ Decimal.showFloat x ++ ")"
  | cell (.text s) => "np.str_(" ++ Text.quoted s ++ ")"
  | series _ => "Series"
  | definition _ => "VarDefNode"
  | unsupported => "<class 'NotImplementedError'>"

def shownItems : List Value → List String
  | [] => []
  | v :: rest => v.shown :: shownItems rest

def shownFields : List (String × Value) → List String
  | [] => []
  | (k, v) :: rest => (Text.quoted k ++ ": " ++ v.shown) :: shownFields rest

end

def printed : Value → String
  | text s => s
  | cell c => c.printed
  | v => v.shown

end Value

end PineEngine
