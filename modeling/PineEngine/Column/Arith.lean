import PineEngine.Scalar

/-! # Operations on columns

An operation on columns goes cell by cell. A single value stands for a column that repeats it, and so does
a column of one cell; columns of other lengths do not fit together. The kind of the result is chosen from
the kinds of the two sides before any cell is computed.
-/

namespace PineEngine

inductive Operand where
  | single (v : Value)
  | column (c : Column)

namespace Operand

/-- The shape of an operand: the numbers of rows and of cells in a row. -/
def shape : Operand → List Nat
  | single _ => []
  | column c =>
    match c.rowLen with
    | none => [c.size]
    | some n => [c.length, n]

def side : Operand → Side
  | single v => sideOf v
  | column c => .kind c.cells.kind

def cellAt (o : Operand) (i : Nat) : Value :=
  match o with
  | single v => v
  | column c => (c.cells.get? i).getD .absent

end Operand

/-- One length from two: equal ones, or the other if one of them is one. -/
def stretchLength (a b : Nat) : Option Nat :=
  if a == b then some a else if a == 1 then some b else if b == 1 then some a else none

/-- The shape that two shapes are stretched to, given from the innermost length. -/
def stretchReversed : List Nat → List Nat → Option (List Nat)
  | [], bs => some bs
  | as, [] => some as
  | a :: as, b :: bs => do
    let c ← stretchLength a b
    let cs ← stretchReversed as bs
    some (c :: cs)

def stretch (a b : List Nat) : Option (List Nat) :=
  (stretchReversed a.reverse b.reverse).map List.reverse

/-- The position in an operand of the given shape that a position of the stretched shape reads. -/
def sourcePosition (own whole : List Nat) (i : Nat) : Nat :=
  match own, whole with
  | [], _ => 0
  | [n], [_] => if n == 1 then 0 else i
  | [n], [_, k] => if n == 1 then 0 else if k == 0 then 0 else i % k
  | [m, n], [_, k] =>
    let (row, col) := if k == 0 then (0, 0) else (i / k, i % k)
    (if m == 1 then 0 else row) * n + (if n == 1 then 0 else col)
  | _, _ => i

/-- The pairs of cells that meet, and the row length of the result. -/
def pairs (a b : Operand) : Except Fault (List (Value × Value) × Option Nat) :=
  match stretch a.shape b.shape with
  | none => .error .value
  | some whole =>
    let count := whole.foldl (· * ·) 1
    let rowLen := match whole with
      | [_, n] => some n
      | _ => none
    .ok ((List.range count).map fun i =>
      (a.cellAt (sourcePosition a.shape whole i), b.cellAt (sourcePosition b.shape whole i)), rowLen)

def columnOfCells (k : Kind) (rowLen : Option Nat) (vs : List Value) : Except Fault Column :=
  (Cells.ofValuesAs k vs).map fun cs => ⟨cs, rowLen⟩

namespace Column

/-- The kind in which two sides meet for an operation, and the kind of the result. -/
def arithKinds (op : ArithOp) (a b : Side) : Except Fault (Kind × Kind) :=
  match a.meet b with
  | none => .error .operands
  | some .bool => if op == .sub then .error .operands else .ok (.bool, Cell.resultKind op .bool)
  | some (.text n) =>
    match op, a, b with
    | .add, .kind (.text l), .kind (.text r) => .ok (.text n, .text (l + r))
    | _, _, _ => .error .operands
  | some k => .ok (k, Cell.resultKind op k)

def arithCell (op : ArithOp) (k : Kind) (x y : Value) : Except Fault Value :=
  match k with
  | .object => Value.arithPlain op x.plain y.plain
  | k => (Cell.arith op k x y).map Value.cell

def arith (op : ArithOp) (a b : Operand) : Except Fault Column := do
  let (met, result) ← arithKinds op a.side b.side
  let (ps, rowLen) ← pairs a b
  let vs ← ps.mapM fun (x, y) => arithCell op met x y
  columnOfCells result rowLen vs

/-- Texts and numbers do not meet; they can be asked for equality only. -/
def comparable (op : CompareOp) (met : Option Kind) : Except Fault Unit :=
  match met with
  | none => (op.unordered false).map fun _ => ()
  | some _ => .ok ()

def compareCell (op : CompareOp) (met : Option Kind) (x y : Value) : Except Fault Bool :=
  match met with
  | none => op.unordered false
  | some .object => Value.comparePlain op x.plain y.plain
  | some k => Cell.compareAs op k x y

def compare (op : CompareOp) (a b : Operand) : Except Fault Column := do
  let (ps, rowLen) ← pairs a b
  comparable op (a.side.meet b.side)
  let rs ← ps.mapM fun (x, y) => compareCell op (a.side.meet b.side) x y
  pure ⟨.bools rs.toArray, rowLen⟩

/-- `and` and `or` of which at least one side is a column. Arbitrary values are chosen from; all other
    cells give truth values. -/
def logic (isAnd : Bool) (a b : Operand) : Except Fault Column := do
  let (ps, rowLen) ← pairs a b
  match a.side, b.side with
  | .kind .object, _ | _, .kind .object =>
    columnOfCells .object rowLen (ps.map fun (x, y) => if x.isTrue == isAnd then y else x)
  | _, _ =>
    let rs := ps.map fun (x, y) => if isAnd then x.isTrue && y.isTrue else x.isTrue || y.isTrue
    pure ⟨.bools rs.toArray, rowLen⟩

/-- The opposite truth values. Texts have none. -/
def negation (c : Column) : Except Fault Column :=
  match c.cells with
  | .texts _ _ => .error .operands
  | .objects xs => .ok { c with cells := .objects (xs.map fun v => .bool !v.isTrue) }
  | cells => .ok { c with cells := .bools (cells.toList.map fun v => !v.isTrue).toArray }

def signOfFloat (x : Float) : Float :=
  if x < 0 then -1.0 else if 0 < x then 1.0 else if x == 0.0 then 0.0 else x

def signs (c : Column) : Except Fault Column :=
  match c.cells with
  | .floats xs => .ok { c with cells := .floats (xs.map signOfFloat) }
  | .ints w xs => .ok { c with cells := .ints w (xs.map Int.sign) }
  | .objects xs => do
    let vs ← xs.toList.mapM fun v => v.plain.signum
    pure { c with cells := .objects vs.toArray }
  | _ => .error .operands

def magnitudes (c : Column) : Except Fault Column :=
  match c.cells with
  | .floats xs => .ok { c with cells := .floats (xs.map Float.abs) }
  | .ints w xs => .ok { c with cells := .ints w (xs.map fun n => w.wrap n.natAbs) }
  | .bools xs => .ok { c with cells := .bools xs }
  | .objects xs => do
    let vs ← xs.toList.mapM fun v => v.plain.magnitude
    pure { c with cells := .objects vs.toArray }
  | _ => .error .operands

/-- A double with zero in place of no number, and the largest doubles in place of the infinities. -/
def finiteFloat (x : Float) : Float :=
  if x.isNaN then 0.0
  else if x.isInf then (if x < 0 then -largestFloat else largestFloat)
  else x

def finite (c : Column) : Column :=
  match c.cells with
  | .floats xs => { c with cells := .floats (xs.map finiteFloat) }
  | _ => c

/-- The cells moved by an offset, those pushed out at one end coming in at the other. -/
def rotate (c : Column) (offset : Int) : Column :=
  { c with cells := c.cells.rearrange fun xs =>
      let n := xs.size
      if n == 0 then xs
      else
        let k := (offset % n).toNat
        xs.extract (n - k) n ++ xs.extract 0 (n - k) }

def advance (c : Column) : Column :=
  let n := c.rowLen.getD 1
  { c with cells := c.cells.rearrange fun xs => xs.extract n xs.size ++ xs.extract (xs.size - n) xs.size }

end Column

end PineEngine
