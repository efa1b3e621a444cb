import PineEngine.Text.Template

/-! # Operations on single values

Numbers that a script writes are exact: whole numbers do not overflow, and a division by zero is a fault.
Machine cells follow machine arithmetic: integers wrap around, and a division by zero gives an infinity
or no number. Where the two meet, the machine's rules hold.
-/

namespace PineEngine

inductive ArithOp where
  | add | sub | mul | div | mod
  deriving DecidableEq, Repr

inductive CompareOp where
  | eq | ne | lt | le | gt | ge
  deriving DecidableEq, Repr

namespace CompareOp

/-- What a comparison says about two values in the given order. -/
def decideOrder (op : CompareOp) (o : Ordering) : Bool :=
  match op, o with
  | eq, .eq | le, .eq | ge, .eq => true
  | ne, .lt | ne, .gt => true
  | lt, .lt | le, .lt => true
  | gt, .gt | ge, .gt => true
  | _, _ => false

/-- A comparison of doubles; what is not a number differs from everything. -/
def floats (op : CompareOp) (x y : Float) : Bool :=
  match op with
  | eq => x == y
  | ne => !(x == y)
  | lt => x < y
  | le => x ≤ y
  | gt => y < x
  | ge => y ≤ x

/-- A comparison of two values that have no order: only equality can be asked. -/
def unordered (op : CompareOp) (same : Bool) : Except Fault Bool :=
  match op with
  | eq => .ok same
  | ne => .ok !same
  | _ => .error .operands

end CompareOp

def compareText : List Char → List Char → Ordering
  | [], [] => .eq
  | [], _ :: _ => .lt
  | _ :: _, [] => .gt
  | a :: as, b :: bs => if a == b then compareText as bs else compare a.toNat b.toNat

/-- What an operand contributes to the choice of a kind: a kind of its own, or a number that takes the
    kind of the other side. -/
inductive Side where
  | kind (k : Kind)
  | looseInt
  | looseFloat
  deriving DecidableEq

namespace Side

/-- The kind in which two operands meet; `none` if texts meet numbers. -/
def meet : Side → Side → Option Kind
  | kind .object, _ => some .object
  | _, kind .object => some .object
  | kind (.text a), kind (.text b) => some (.text (max a b))
  | kind (.text _), _ => none
  | _, kind (.text _) => none
  | kind a, kind b => some (a.join b)
  | kind .bool, looseInt => some (.int .long)
  | looseInt, kind .bool => some (.int .long)
  | kind k, looseInt => some k
  | looseInt, kind k => some k
  | looseInt, looseInt => some (.int .long)
  | _, looseFloat => some .float
  | looseFloat, _ => some .float

end Side

/-- An operand of machine arithmetic, as an ordinary number, and the side it takes. -/
def sideOf : Value → Side
  | .int _ => .looseInt
  | .float _ => .looseFloat
  | v => .kind (Kind.ofValue v)

namespace Cell

def resultKind (op : ArithOp) (k : Kind) : Kind :=
  match op, k with
  | _, .object => .object
  | .div, _ => .float
  | .mod, .bool => .int .byte
  | _, k => k

def machineInt (w : Width) (v : Value) : Except Fault Int := do
  let n ← v.toInt
  if w.holds n then .ok n else .error .overflow

/-- Machine integers: the result wraps around, and a remainder by zero is zero. -/
def ints (op : ArithOp) (w : Width) (a b : Int) : Int :=
  match op with
  | .add => w.wrap (a + b)
  | .sub => w.wrap (a - b)
  | .mul => w.wrap (a * b)
  | .mod => if b == 0 then 0 else w.wrap (Int.fmod a b)
  | .div => 0

def floats (op : ArithOp) (x y : Float) : Float :=
  match op with
  | .add => x + y
  | .sub => x - y
  | .mul => x * y
  | .div => x / y
  | .mod => Decimal.remainderFloor x y

def arith (op : ArithOp) (k : Kind) (a b : Value) : Except Fault Cell := do
  match op, k with
  | .div, .text _ => .error .operands
  | .div, .object => .error .operands
  | .div, _ => .ok (.float ((← a.toFloat) / (← b.toFloat)))
  | op, .float => .ok (.float (floats op (← a.toFloat) (← b.toFloat)))
  | op, .int w => .ok (.int w (ints op w (← machineInt w a) (← machineInt w b)))
  | .add, .bool => .ok (.bool (a.isTrue || b.isTrue))
  | .mul, .bool => .ok (.bool (a.isTrue && b.isTrue))
  | .mod, .bool => .ok (.int .byte (ints .mod .byte (← a.toInt) (← b.toInt)))
  | .add, .text _ => .ok (.text (a.printed ++ b.printed))
  | _, _ => .error .operands

def compareAs (op : CompareOp) (k : Kind) (a b : Value) : Except Fault Bool := do
  match k with
  | .float => .ok (op.floats (← a.toFloat) (← b.toFloat))
  | .int _ => .ok (op.decideOrder (compare (← a.toInt) (← b.toInt)))
  | .bool => .ok (op.decideOrder (compare (← a.toInt) (← b.toInt)))
  | .text _ => .ok (op.decideOrder (compareText a.printed.toList b.printed.toList))
  | .object => .error .operands

end Cell

namespace Value

/-- A number as a whole number, if it is one by kind. -/
def whole? : Value → Option Int
  | .int n => some n
  | .bool b => some (if b then 1 else 0)
  | _ => Option.none

def isCell : Value → Bool
  | .cell _ => true
  | _ => false

def arithInts (op : ArithOp) (a b : Int) : Except Fault Value :=
  match op with
  | .add => .ok (.int (a + b))
  | .sub => .ok (.int (a - b))
  | .mul => .ok (.int (a * b))
  | .div =>
    if b == 0 then .error .zeroDivision
    else
      let bits := Decimal.quotientBits a.natAbs b.natAbs
      if bits == Decimal.infinityBits then .error .overflow
      else .ok (.float (Decimal.floatOfBits ((a < 0) != (b < 0)) bits))
  | .mod => if b == 0 then .error .zeroDivision else .ok (.int (Int.fmod a b))

def arithFloats (op : ArithOp) (x y : Float) : Except Fault Value :=
  match op with
  | .div | .mod => if y == 0.0 then .error .zeroDivision else .ok (.float (Cell.floats op x y))
  | _ => .ok (.float (Cell.floats op x y))

def repeatText (s : String) (n : Int) : Value :=
  .text (String.join (List.replicate n.toNat s))

def repeatList (vs : List Value) (n : Int) : Value :=
  .list (List.replicate n.toNat vs).flatten

def isNumber : Value → Bool
  | .int _ | .bool _ | .float _ => true
  | _ => false

def arithPlain (op : ArithOp) (a b : Value) : Except Fault Value := do
  match op, a, b with
  | .add, .text s, .text t => .ok (.text (s ++ t))
  | .add, .list s, .list t => .ok (.list (s ++ t))
  | .mod, .text s, v => (Text.fillTemplate s v).map Value.text
  | .mul, .text s, v =>
    match v.whole? with
    | some n => .ok (repeatText s n)
    | Option.none => .error .operands
  | .mul, .list s, v =>
    match v.whole? with
    | some n => .ok (repeatList s n)
    | Option.none => .error .operands
  | .mul, v, .text s =>
    match v.whole? with
    | some n => .ok (repeatText s n)
    | Option.none => .error .operands
  | .mul, v, .list s =>
    match v.whole? with
    | some n => .ok (repeatList s n)
    | Option.none => .error .operands
  | op, a, b =>
    match a.whole?, b.whole? with
    | some m, some n => arithInts op m n
    | _, _ =>
      if a.isNumber && b.isNumber then arithFloats op (← a.toFloat) (← b.toFloat)
      else .error .operands

def arith (op : ArithOp) (a b : Value) : Except Fault Value :=
  if a.isCell || b.isCell then
    match (sideOf a).meet (sideOf b) with
    | some .object => arithPlain op a.plain b.plain
    | some k => (Cell.arith op k a b).map Value.cell
    | Option.none => .error .operands
  else arithPlain op a b

/-- Order of two numbers; `none` if one is not a number. -/
def compareNumbers (a b : Value) : Option Ordering :=
  match a.whole?, b.whole?, a, b with
  | some m, some n, _, _ => some (compare m n)
  | some m, Option.none, _, .float y => Decimal.compareInt m y
  | Option.none, some n, .float x, _ => (Decimal.compareInt n x).map Ordering.swap
  | _, _, .float x, .float y =>
    if x < y then some .lt else if y < x then some .gt else if x == y then some .eq else Option.none
  | _, _, _, _ => Option.none

mutual

def same : Value → Value → Bool
  | .absent, .absent => true
  | .text s, .text t => s == t
  | .list s, .list t => sameItems s t
  | .dict s, .dict t => s.length == t.length && sameFields s t
  | .series a, .series b => a == b
  | .definition a, .definition b => a == b
  | .unsupported, .unsupported => true
  | a, b => a.isNumber && b.isNumber && compareNumbers a b == some .eq

def sameItems : List Value → List Value → Bool
  | [], [] => true
  | a :: as, b :: bs => a.same b && sameItems as bs
  | _, _ => false

/-- Whether a table has all fields of another with equal values. -/
def sameFields : List (String × Value) → List (String × Value) → Bool
  | [], _ => true
  | (k, v) :: rest, t =>
    (match t.lookup k with
      | some w => v.same w
      | Option.none => false) && sameFields rest t

end

/-- A comparison by order of values that are neither series, cells nor lists. -/
def compareSingles (op : CompareOp) (a b : Value) : Except Fault Bool :=
  match a, b with
  | .text s, .text t => .ok (op.decideOrder (compareText s.toList t.toList))
  | a, b =>
    if a.isNumber && b.isNumber then
      match compareNumbers a b with
      | some o => .ok (op.decideOrder o)
      | Option.none => .ok (op == .ne)
    else op.unordered (a.same b)

/-- A comparison of lists: the first items that differ decide. -/
def compareItems (op : CompareOp) : List Value → List Value → Except Fault Bool
  | [], [] => .ok (op.decideOrder .eq)
  | [], _ :: _ => .ok (op.decideOrder .lt)
  | _ :: _, [] => .ok (op.decideOrder .gt)
  | a :: as, b :: bs => if a.same b then compareItems op as bs else compareSingles op a b

def comparePlain (op : CompareOp) (a b : Value) : Except Fault Bool :=
  match a, b with
  | .list s, .list t => compareItems op s t
  | a, b => compareSingles op a b

def compare (op : CompareOp) (a b : Value) : Except Fault Value :=
  if a.isCell || b.isCell then
    match (sideOf a).meet (sideOf b) with
    | some .object => (comparePlain op a.plain b.plain).map Value.bool
    | some k => (Cell.compareAs op k a b).map fun r => .cell (.bool r)
    | Option.none => (op.unordered false).map fun r => .cell (.bool r)
  else (comparePlain op a b).map Value.bool

def negate : Value → Except Fault Value
  | .int n => .ok (.int (-n))
  | .bool b => .ok (.int (if b then -1 else 0))
  | .float x => .ok (.float (-x))
  | .cell (.int w n) => .ok (.cell (.int w (w.wrap (-n))))
  | .cell (.float x) => .ok (.cell (.float (-x)))
  | _ => .error .operands

def magnitude : Value → Except Fault Value
  | .int n => .ok (.int n.natAbs)
  | .bool b => .ok (.int (if b then 1 else 0))
  | .float x => .ok (.float x.abs)
  | .cell (.bool b) => .ok (.cell (.bool b))
  | .cell (.int w n) => .ok (.cell (.int w (w.wrap n.natAbs)))
  | .cell (.float x) => .ok (.cell (.float x.abs))
  | _ => .error .operands

/-- The sign of a number that is neither a cell nor no number: one of the whole numbers -1, 0 and 1. -/
def signum (v : Value) : Except Fault Value :=
  if v.isNumber then
    match compareNumbers v (.int 0) with
    | some .lt => .ok (.int (-1))
    | some .eq => .ok (.int 0)
    | some .gt => .ok (.int 1)
    | Option.none => .error .operands
  else .error .operands

end Value

end PineEngine
