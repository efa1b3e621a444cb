import PineEngine.Value.Entry

/-! # Frames

A frame is a table of columns of one length. A column of whole numbers stays as it is; a column of numbers
of which some are doubles or missing becomes a column of doubles; any other column is left alone.
-/

namespace PineEngine

abbrev Frame := List (String × List Value)

namespace Frame

def isWhole : Value → Bool
  | .int _ | .cell (.int _ _) => true
  | _ => false

def isNumber : Value → Bool
  | .float _ | .cell (.float _) => true
  | v => isWhole v

def toDouble : Value → Except Fault Value
  | .absent => .ok (.float notANumber)
  | v => v.toFloat.map Value.float

def normalize (vs : List Value) : Except Fault (List Value) :=
  let missing (v : Value) : Bool := match v with
    | .absent => true
    | _ => false
  if vs.all isWhole then .ok (vs.map Value.plain)
  else if vs.all (fun v => isNumber v || missing v) && !vs.all missing then vs.mapM toDouble
  else .ok (vs.map Value.plain)

def ofColumns (columns : List (String × List Value)) : Except Fault Frame :=
  match columns with
  | [] => .ok []
  | (_, c) :: rest =>
    if rest.all fun (_, d) => d.length == c.length then
      columns.mapM fun (n, c) => do pure (n, ← normalize c)
    else .error .value

def column (f : Frame) (name : String) : Except Fault (List Value) :=
  match f.lookup name with
  | some c => .ok c
  | none => .error .key

end Frame

end PineEngine
