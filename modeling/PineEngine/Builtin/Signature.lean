import PineEngine.Column

/-! # Signatures of built-in functions

A signature lists the parameters of a function. `Signature.bind` gives every parameter its argument: one
given by name wins over one given by position, and names that are no parameter are ignored. The first
parameter in order that lacks a mandatory argument, or that refuses the kind of its argument, decides the
fault.
-/

namespace PineEngine.Builtin

inductive ArgKind where
  | int | float | bool | text | series | dict
  deriving DecidableEq, Repr

structure Parameter where
  name : String
  kind : Option ArgKind
  mandatory : Bool
  deriving Repr

/-- The parameters of a function, in the order in which arguments are given by position. -/
abbrev Signature := List Parameter

abbrev Arguments := List (String × Value)

namespace ArgKind

def label : ArgKind → String
  | int => "int"
  | float => "float"
  | bool => "bool"
  | text => "str"
  | series => "Series"
  | dict => "dict"

/-- Whether a value is of a kind as it stands. Truth values are whole numbers too. -/
def holds : ArgKind → Value → Bool
  | int, .int _ => true
  | int, .bool _ => true
  | float, .float _ => true
  | float, .cell (.float _) => true
  | bool, .bool _ => true
  | text, .text _ => true
  | text, .cell (.text _) => true
  | series, .series _ => true
  | dict, .dict _ => true
  | _, _ => false

/-- The value as an argument of a kind: a whole number becomes a double, a double without fraction a whole
    number, and the word `false` a truth value; any other text passes as a truth value too. `none` if
    the kind refuses the value. -/
def convert? : ArgKind → Value → Except Fault (Option Value)
  | float, .int n => (Value.floatOfInt n).map fun x => some (.float x)
  | int, .float x => do
    let n ← (Value.float x).toInt
    pure (if Decimal.compareInt n x == some .eq then some (.int n) else none)
  | bool, .text s => .ok (some (if s == "false" then .bool false else .text s))
  | k, v => .ok (if k.holds v then some v else none)

end ArgKind

namespace Arguments

def value (args : Arguments) (name : String) : Value :=
  (args.lookup name).getD .absent

end Arguments

namespace Parameter

/-- The argument that a parameter takes. `typeName` names the kind of a value in messages. -/
def accept (typeName : Value → String) (p : Parameter) (v : Value) : Except Fault Value :=
  match v, p.kind with
  | .absent, _ => if p.mandatory then .error (.argument (.missing p.name)) else .ok .absent
  | v, none => .ok v
  | v, some k => do
    match ← k.convert? v with
    | some v => .ok v
    | none => .error (.argument (.wrongType p.name (typeName v) k.label))

end Parameter

namespace Signature

/-- The arguments by name: those given by position, overridden by those given by name. Of two for one name
    the later counts. -/
def given (sig : Signature) (args : List Value) (named : Arguments) : Arguments :=
  named.reverse ++ ((sig.map (·.name)).zip args).reverse

def bind (typeName : Value → String) (sig : Signature) (args : List Value) (named : Arguments) :
    Except Fault Arguments :=
  if sig.length < args.length then .error (.argument (.tooMany args.length sig.length))
  else
    let found := given sig args named
    sig.mapM fun p => do pure (p.name, ← p.accept typeName (found.value p.name))

end Signature

end PineEngine.Builtin
