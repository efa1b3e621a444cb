import PineEngine.Decimal.Read
import PineEngine.Fault
import PineEngine.Value

/-! # Columns

A column holds cells of one kind: truth values, machine integers, doubles, texts of a fixed width, or
arbitrary values. What is stored into a column takes the column's kind: a double loses its fraction in a
column of integers, a long text its end in a column of texts.

A column of rows keeps its cells row after row; `rowLen` is the length of a row.
-/

namespace PineEngine

inductive Kind where
  | bool
  | int (w : Width)
  | float
  | text (width : Nat)
  | object
  deriving DecidableEq, Repr

def Kind.label : Kind → String
  | bool => "bool"
  | int w => w.label
  | float => "float64"
  | text n => "<U" ++ toString n
  | object => "object"

inductive Cells where
  | bools (xs : Array Bool)
  | ints (w : Width) (xs : Array Int)
  | floats (xs : Array Float)
  | texts (width : Nat) (xs : Array String)
  | objects (xs : Array Value)
  deriving Inhabited

structure Column where
  cells : Cells
  rowLen : Option Nat := none
  deriving Inhabited

def notANumber : Float := 0.0 / 0.0

def largestFloat : Float := Decimal.floatOfBits false (Decimal.infinityBits - 1)

namespace Value

def ofCell : Cell → Value
  | .bool b => .bool b
  | .int _ n => .int n
  | .float x => .float x
  | .text s => .text s

/-- The value with machine cells replaced by ordinary values. -/
def plain : Value → Value
  | .cell c => ofCell c
  | v => v

/-- Whether a value counts as true. A series is not asked here. -/
def isTrue : Value → Bool
  | .absent => false
  | .bool b => b
  | .int n => n != 0
  | .float x => !(x == 0.0)
  | .text s => !s.isEmpty
  | .list items => !items.isEmpty
  | .dict fields => !fields.isEmpty
  | .cell c => c.isTrue
  | .series _ => true
  | .definition _ => true
  | .unsupported => true

/-- The whole number that a double or a number in text holds, toward zero. -/
def toInt : Value → Except Fault Int
  | .bool b => .ok (if b then 1 else 0)
  | .int n => .ok n
  | .float x => ofFloat x
  | .text s => ofText s
  | .cell (.bool b) => .ok (if b then 1 else 0)
  | .cell (.int _ n) => .ok n
  | .cell (.float x) => ofFloat x
  | .cell (.text s) => ofText s
  | _ => .error .operands
where
  ofFloat (x : Float) : Except Fault Int :=
    match Decimal.truncate? x with
    | some n => .ok n
    | none => .error (if x.isNaN then .value else .overflow)
  ofText (s : String) : Except Fault Int :=
    match Decimal.readInt? s with
    | some n => .ok n
    | none => .error .value

def floatOfInt (n : Int) : Except Fault Float :=
  match Decimal.floatOfInt? n with
  | some x => .ok x
  | none => .error .overflow

def toFloat : Value → Except Fault Float
  | .bool b => .ok (if b then 1.0 else 0.0)
  | .int n => floatOfInt n
  | .float x => .ok x
  | .text s => ofText s
  | .cell (.bool b) => .ok (if b then 1.0 else 0.0)
  | .cell (.int _ n) => floatOfInt n
  | .cell (.float x) => .ok x
  | .cell (.text s) => ofText s
  | _ => .error .operands
where
  ofText (s : String) : Except Fault Float :=
    match Decimal.readFloat? s with
    | some x => .ok x
    | none => .error .value

/-- Whether a number is not a number. Only numbers can be asked. -/
def isNaN : Value → Except Fault Bool
  | .text _ => .error .operands
  | .cell (.text _) => .error .operands
  | v => (toFloat v).map Float.isNaN

end Value

namespace Cells

def kind : Cells → Kind
  | bools _ => .bool
  | ints w _ => .int w
  | floats _ => .float
  | texts n _ => .text n
  | objects _ => .object

def size : Cells → Nat
  | bools xs => xs.size
  | ints _ xs => xs.size
  | floats xs => xs.size
  | texts _ xs => xs.size
  | objects xs => xs.size

def get? (cs : Cells) (i : Nat) : Option Value :=
  match cs with
  | bools xs => xs[i]?.map fun b => .cell (.bool b)
  | ints w xs => xs[i]?.map fun n => .cell (.int w n)
  | floats xs => xs[i]?.map fun x => .cell (.float x)
  | texts _ xs => xs[i]?.map fun s => .cell (.text s)
  | objects xs => xs[i]?

def toList (cs : Cells) : List Value :=
  match cs with
  | bools xs => xs.toList.map fun b => .cell (.bool b)
  | ints w xs => xs.toList.map fun n => .cell (.int w n)
  | floats xs => xs.toList.map fun x => .cell (.float x)
  | texts _ xs => xs.toList.map fun s => .cell (.text s)
  | objects xs => xs.toList

def rearrange (cs : Cells) (f : {α : Type} → Array α → Array α) : Cells :=
  match cs with
  | bools xs => bools (f xs)
  | ints w xs => ints w (f xs)
  | floats xs => floats (f xs)
  | texts n xs => texts n (f xs)
  | objects xs => objects (f xs)

def cutText (width : Nat) (s : String) : String :=
  String.ofList (s.toList.take width)

def intCell (w : Width) (v : Value) : Except Fault Int := do
  let n ← v.toInt
  if w.holds n then .ok n else .error .overflow

/-- A double for a column of doubles; nothing counts as not a number. -/
def floatCell : Value → Except Fault Float
  | .absent => .ok notANumber
  | v => v.toFloat

def textCell (width : Nat) : Value → Except Fault String
  | .list _ => .error .value
  | v => .ok (cutText width v.printed)

def set (cs : Cells) (i : Nat) (v : Value) : Except Fault Cells :=
  match cs with
  | bools xs => .ok (bools (xs.setIfInBounds i v.isTrue))
  | ints w xs => (intCell w v).map fun n => ints w (xs.setIfInBounds i n)
  | floats xs => (floatCell v).map fun x => floats (xs.setIfInBounds i x)
  | texts n xs => (textCell n v).map fun s => texts n (xs.setIfInBounds i s)
  | objects xs => .ok (objects (xs.setIfInBounds i v))

def ofValuesAs (k : Kind) (vs : List Value) : Except Fault Cells :=
  match k with
  | .bool => .ok (bools (vs.map Value.isTrue).toArray)
  | .int w => (vs.mapM (intCell w)).map fun ns => ints w ns.toArray
  | .float => (vs.mapM floatCell).map fun xs => floats xs.toArray
  | .text n => (vs.mapM (textCell n)).map fun ss => texts n ss.toArray
  | .object => .ok (objects (vs.map Value.plain).toArray)

end Cells

namespace Kind

/-- The width that the text of a number or truth value may take. -/
def textWidth : Kind → Nat
  | bool => 5
  | int .byte => 4
  | int .long => 21
  | int .unsigned => 20
  | float => 32
  | text n => n
  | object => 1

def ofValue : Value → Kind
  | .bool _ => .bool
  | .int n =>
    if Width.long.holds n then .int .long
    else if Width.unsigned.holds n then .int .unsigned
    else .object
  | .float _ => .float
  | .text s => .text (max 1 s.length)
  | .cell (.bool _) => .bool
  | .cell (.int w _) => .int w
  | .cell (.float _) => .float
  | .cell (.text s) => .text (max 1 s.length)
  | _ => .object

/-- The kind that can hold the cells of two kinds side by side. -/
def join : Kind → Kind → Kind
  | object, _ => object
  | _, object => object
  | text n, k => text (max n k.textWidth)
  | k, text n => text (max k.textWidth n)
  | float, _ => float
  | _, float => float
  | bool, k => k
  | k, bool => k
  | int a, int b =>
    if a == b then int a
    else if a == .unsigned || b == .unsigned then float
    else int .long

end Kind

namespace Column

def size (c : Column) : Nat :=
  c.cells.size

def length (c : Column) : Nat :=
  match c.rowLen with
  | none => c.size
  | some n => if n == 0 then 0 else c.size / n

def ofSingles (vs : List Value) : Except Fault Column :=
  let k := match vs with
    | [] => Kind.float
    | v :: rest => rest.foldl (fun k v => k.join (Kind.ofValue v)) (Kind.ofValue v)
  (Cells.ofValuesAs k vs).map fun cs => ⟨cs, none⟩

def items? : Value → Option (List Value)
  | .list items => some items
  | _ => none

def ofValues (vs : List Value) : Except Fault Column :=
  match vs.mapM items? with
  | some (row :: rows) =>
    if rows.all fun r => r.length == row.length then
      (ofSingles (row ++ rows.flatten)).map fun c => { c with rowLen := some row.length }
    else .error .value
  | _ =>
    if vs.any fun v => (items? v).isSome then .error .value
    else ofSingles vs

def replicate (n : Nat) (v : Value) : Except Fault Column :=
  ofValues (List.replicate n v)

/-- The position that an index means, counted from the end if negative. -/
def position? (n : Nat) (i : Int) : Option Nat :=
  if 0 ≤ i then (if i < n then some i.toNat else none)
  else if -(n : Int) ≤ i then some (i + n).toNat
  else none

/-- The entry at an index: a cell, or a row as a list. -/
def get (c : Column) (i : Int) : Except Fault Value :=
  match position? c.length i with
  | none => .error .index
  | some k =>
    match c.rowLen with
    | none => match c.cells.get? k with
      | some v => .ok v
      | none => .error .index
    | some n => .ok (.list ((c.cells.toList.drop (k * n)).take n))

def rowOf (n : Nat) : Value → Except Fault (List Value)
  | .list [x] => .ok (List.replicate n x)
  | .list xs => if xs.length == n then .ok xs else .error .value
  | x => .ok (List.replicate n x)

def set (c : Column) (i : Int) (v : Value) : Except Fault Column :=
  match position? c.length i with
  | none => .error .index
  | some k =>
    match c.rowLen with
    | none => (c.cells.set k v).map fun cs => { c with cells := cs }
    | some n => do
      let row ← rowOf n v
      let cells ← (row.zipIdx).foldlM (fun cs (x, j) => cs.set (k * n + j) x) c.cells
      pure { c with cells := cells }

def toList (c : Column) : List Value :=
  match c.rowLen with
  | none => c.cells.toList
  | some n => (List.range c.length).map fun k => .list ((c.cells.toList.drop (k * n)).take n)

end Column

end PineEngine
