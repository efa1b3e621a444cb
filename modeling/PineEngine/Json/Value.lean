import PineEngine.Json
import PineEngine.Text.Case
import PineEngine.Value.Entry

/-! # Values in exchanged data

Every JSON value is a value; of values those can be written that hold no series, no machine integer and no
machine truth value.
-/

namespace PineEngine

mutual

def Json.toValue : Json → Value
  | .null => .absent
  | .bool b => .bool b
  | .int n => .int n
  | .float x => .float x
  | .str s => .text s
  | .arr items => .list (Json.toValues items)
  | .obj fields => .dict (Json.toValueFields fields)

def Json.toValues : List Json → List Value
  | [] => []
  | j :: rest => j.toValue :: Json.toValues rest

def Json.toValueFields : List (String × Json) → Fields
  | [] => []
  | (k, j) :: rest => (k, j.toValue) :: Json.toValueFields rest

end

mutual

def Value.toJson : Value → Except Fault Json
  | .absent => .ok .null
  | .bool b => .ok (.bool b)
  | .int n => .ok (.int n)
  | .float x => .ok (.float x)
  | .text s => .ok (.str s)
  | .list items => (Value.toJsonItems items).map Json.arr
  | .dict fields => (Value.toJsonFields fields).map Json.obj
  | .cell (.float x) => .ok (.float x)
  | .cell (.text s) => .ok (.str s)
  | _ => .error .operands

def Value.toJsonItems : List Value → Except Fault (List Json)
  | [] => .ok []
  | v :: rest => do
    let j ← v.toJson
    let js ← Value.toJsonItems rest
    pure (j :: js)

def Value.toJsonFields : List (String × Value) → Except Fault (List (String × Json))
  | [] => .ok []
  | (k, v) :: rest => do
    let j ← v.toJson
    let js ← Value.toJsonFields rest
    pure ((k, j) :: js)

end

namespace Json

def item (j : Json) (key : String) : Except Fault Json :=
  match j with
  | .obj _ =>
    match j.field? key with
    | some v => .ok v
    | none => .error .key
  | _ => .error .operands

def getField (j : Json) (key : String) : Except Fault Json :=
  match j with
  | .obj _ => .ok ((j.field? key).getD .null)
  | _ => .error .member

def members : Json → Except Fault (List (String × Json))
  | .obj fields => .ok fields
  | _ => .error .member

def isTrue (j : Json) : Bool :=
  j.toValue.isTrue

def elements : Json → Except Fault (List Json)
  | .arr items => .ok items
  | .str s => .ok (s.toList.map fun c => .str (String.singleton c))
  | .obj fields => .ok (fields.map fun (k, _) => .str k)
  | _ => .error .operands

def lower : Json → Except Fault String
  | .str s => .ok (Text.lower s)
  | _ => .error .member

end Json

end PineEngine
