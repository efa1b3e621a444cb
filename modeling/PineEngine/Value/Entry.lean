import PineEngine.Scalar

/-! # Entries of lists and tables

A list is read by position, counted from the end if negative; a table by key. A table keeps the order in
which its keys came, and a key that is set again keeps its place.
-/

namespace PineEngine

abbrev Fields := List (String × Value)

namespace Fields

def set (fields : Fields) (key : String) (v : Value) : Fields :=
  match fields with
  | [] => [(key, v)]
  | (k, w) :: rest => if k == key then (k, v) :: rest else (k, w) :: set rest key v

def get (fields : Fields) (key : String) : Except Fault Value :=
  match fields.lookup key with
  | some v => .ok v
  | none => .error .key

def getD (fields : Fields) (key : String) : Value :=
  (fields.lookup key).getD .absent

end Fields

namespace Value

def itemOf (items : List Value) (i : Int) : Except Fault Value :=
  match Column.position? items.length i with
  | some k => match items[k]? with
    | some v => .ok v
    | Option.none => .error .index
  | Option.none => .error .index

def setItem (items : List Value) (i : Int) (v : Value) : Except Fault (List Value) :=
  match Column.position? items.length i with
  | some k => .ok (items.set k v)
  | Option.none => .error .index

def items : Value → Except Fault (List Value)
  | .list items => .ok items
  | _ => .error .operands

/-- What a value is made of: the items of a list, the characters of a text, the keys of a table. -/
def elements : Value → Except Fault (List Value)
  | .list items => .ok items
  | .text s => .ok (s.toList.map fun c => .text (String.singleton c))
  | .dict fields => .ok (fields.map fun (k, _) => .text k)
  | _ => .error .operands

/-- The item of a list, or the character of a text, at an index. A table has no such key. -/
def item (v : Value) (i : Int) : Except Fault Value :=
  match v with
  | .dict _ => .error .key
  | v => do itemOf (← v.elements) i

def holds (op : CompareOp) (a b : Value) : Except Fault Bool := do
  pure (← compare op a b).isTrue

def isKey : Value → Bool
  | .list _ | .dict _ | .series _ => false
  | _ => true

def sum (vs : List Value) : Except Fault Value :=
  vs.foldlM (arith .add) (.int 0)

end Value

end PineEngine
