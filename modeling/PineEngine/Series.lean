import PineEngine.Column.Arith
import PineEngine.Store

/-! # Operations on series

A result takes its valid index from the series it was computed from: the smaller one of two. Looking back
moves the entries and puts defaults in their place; appending stores the next entry; stepping drops the
first entry to make room for a new one.
-/

namespace PineEngine.SeriesRef

def column (r : SeriesRef) : SeriesM Column := do
  pure ((← get).column r)

def valid (r : SeriesRef) : SeriesM Int := do
  pure ((← get).valid r)

def origin (r : SeriesRef) : SeriesM Origin := do
  pure ((← get).head r).origin

def size (r : SeriesRef) : SeriesM Nat := do
  pure (← column r).size

def length (r : SeriesRef) : SeriesM Nat := do
  pure (← column r).length

def make (c : Column) (valid : Int) (origin : Origin) : SeriesM SeriesRef :=
  modifyGet fun s => s.alloc c valid origin

def entries (vs : List Value) : SeriesM (List Value) :=
  vs.mapM fun v => match v with
    | .series r => do pure (.list (← column r).toList)
    | v => pure v

def ofValues (vs : List Value) : SeriesM SeriesRef := do
  make (← Column.ofValues (← entries vs)) ((vs.length : Int) - 1) .plain

/-- A new series that repeats a value; all of it is valid. -/
def replicate (n : Nat) (v : Value) : SeriesM SeriesRef :=
  ofValues (List.replicate n v)

def setValid (r : SeriesRef) (valid : Int) : SeriesM Unit :=
  modify fun s => s.setValid r valid

/-- A new series that repeats a value; none of it is valid. -/
def unknown (n : Nat) (v : Value) : SeriesM SeriesRef := do
  let r ← replicate n v
  setValid r (-1)
  pure r

def validOf (a b : Value) : SeriesM Int :=
  match a, b with
  | .series a, .series b => do pure (min (← valid a) (← valid b))
  | _, .series b => valid b
  | .series a, _ => valid a
  | _, _ => throw .member

/-- Takes the valid index from one or two values, of which one must be a series. -/
def takeValid (r : SeriesRef) (a b : Value) : SeriesM SeriesRef := do
  setValid r (← validOf a b)
  pure r

def get (r : SeriesRef) (i : Int) : SeriesM Value := do
  (← column r).get i

def set (r : SeriesRef) (i : Int) (v : Value) : SeriesM Unit := do
  let c ← (← column r).set i v
  modify fun s => s.setColumn r c

def update (r : SeriesRef) (f : Column → Except Fault Column) : SeriesM Unit := do
  let c ← f (← column r)
  modify fun s => s.setColumn r c

def outOfDate (r : SeriesRef) (bar : Int) : SeriesM Bool := do
  pure ((← valid r) < bar)

def filled (r : SeriesRef) : SeriesM Bool := do
  pure ((← valid r) == ((← size r) : Int) - 1)

def defaultOf : Kind → Except Fault Value
  | .float => .ok (.float notANumber)
  | .int .long => .ok (.int 0)
  | .bool => .ok (.bool false)
  | .object => .ok (.bool false)
  | k => .error (.script (.noDefault k.label))

def default (r : SeriesRef) : SeriesM Value := do
  defaultOf (← column r).cells.kind

/-- A value as an operand beside a series. A list counts as a column. -/
def operand : Value → SeriesM Operand
  | .series r => do pure (.column (← column r))
  | .list items => do pure (.column (← Column.ofValues (← entries items)))
  | v => pure (.single v)

/-- The origin of what is computed from two operands: that of the first series. -/
def originOf : Value → Value → SeriesM Origin
  | .series a, _ => do pure (← origin a).derived
  | _, .series b => do pure (← origin b).derived
  | _, _ => pure .plain

/-- An operation on two operands, at least one of them a series. -/
def combine (f : Operand → Operand → Except Fault Column) (a b : Value) : SeriesM SeriesRef := do
  let c ← f (← operand a) (← operand b)
  make c (← validOf a b) (← originOf a b)

def arith (op : ArithOp) (a b : Value) : SeriesM SeriesRef :=
  combine (Column.arith op) a b

def compare (op : CompareOp) (a b : Value) : SeriesM SeriesRef :=
  combine (Column.compare op) a b

/-- The cells with finite numbers only, if the first cell is a double. -/
def finiteIfFloat (c : Column) : Except Fault Column :=
  if c.length == 0 then .error .index else .ok c.finite

/-- `and` or `or` with another value. Only the cells of the series itself are made finite first. -/
def logic (isAnd : Bool) (r : SeriesRef) (other : Value) : SeriesM SeriesRef := do
  let c ← finiteIfFloat (← column r)
  let c ← Column.logic isAnd (.column c) (← operand other)
  make c (← validOf (.series r) other) (← origin r).derived

def mapColumn (f : Column → Except Fault Column) (r : SeriesRef) : SeriesM SeriesRef := do
  make (← f (← column r)) (← valid r) (← origin r).derived

def logicalNot (r : SeriesRef) : SeriesM SeriesRef :=
  mapColumn Column.negation r

def sign (r : SeriesRef) : SeriesM SeriesRef :=
  mapColumn Column.signs r

def copy (r : SeriesRef) : SeriesM SeriesRef :=
  mapColumn .ok r

/-- The series itself if its cells are no doubles, else a copy with finite numbers only. -/
def finite (r : SeriesRef) : SeriesM SeriesRef := do
  if (← column r).cells.kind == .float then mapColumn (fun c => .ok c.finite) r else pure r

/-- The entry at an index, with a finite number in place of a double. -/
def getFinite (r : SeriesRef) (i : Int) : SeriesM Value := do
  match ← get r i with
  | .cell (.float x) => pure (.cell (.float (Column.finiteFloat x)))
  | v => pure v

/-- Whether an entry counts as true. A row counts only if it has a single cell. -/
def entryTruth : Value → Except Fault Bool
  | .list [v] => .ok v.isTrue
  | .list _ => .error .value
  | v => .ok v.isTrue

/-- Whether a condition holds at an index. What is not a number does not count. -/
def holdsAt (c : SeriesRef) (i : Int) : SeriesM Bool := do
  entryTruth (← c.getFinite i)

/-- Takes the first entries of another series where a condition does not hold. -/
def replaceUnless (r cond other : SeriesRef) (n : Nat) : SeriesM Unit :=
  (List.range n).forM fun i => do
    if !(← entryTruth (← cond.get i)) then r.set i (← other.get i)

/-- The series as seen a number of bars later: entry `i` of the result is entry `i - offset`, and defaults
    stand where there is none. An offset of zero gives the series itself. -/
def shift (r : SeriesRef) (offset : Int) : SeriesM SeriesRef := do
  if offset == 0 then pure r
  else
    let d ← default r
    let n ← size r
    let moved ←
      if n ≤ offset.natAbs then replicate n d
      else
        let moved ← mapColumn (fun c => .ok (c.rotate offset)) r
        let gaps := if 0 < offset then List.range offset.toNat
          else (List.range (-offset).toNat).map (n - (-offset).toNat + ·)
        gaps.forM fun i => set moved i d
        pure moved
    setValid moved (← valid r)
    pure moved

/-- Drops the first entry and stores a new last one. Without a value that counts as true the last entry
    becomes the default and the valid index falls back by one. -/
def step (r : SeriesRef) (v : Option Value) : SeriesM SeriesRef := do
  modify fun s => s.setColumn r (s.column r).advance
  set r (-1) (← default r)
  match v with
  | some v =>
    if v.isTrue then set r (-1) v else back
  | none => back
  pure r
where
  back : SeriesM Unit := do
    set r (-1) (← default r)
    setValid r ((← valid r) - 1)

/-- A series of defaults that keeps the first entry, which alone is valid. -/
def toMutable (r : SeriesRef) : SeriesM SeriesRef := do
  let m ← replicate (← size r) (← default r)
  set m 0 (← get r 0)
  setValid m 0
  pure m

def append (r : SeriesRef) (v : Value) : SeriesM Value := do
  let i := (← valid r) + 1
  setValid r i
  set r i v
  pure v

def blank (r : SeriesRef) : SeriesM SeriesRef := do
  let b ← replicate (← size r) (← default r)
  setValid b (← valid r)
  pure b

def sourceName (r : SeriesRef) : SeriesM String := do
  match ← origin r with
  | .source s => pure s.label
  | _ => throw .member

/-- A series of given entries that takes its valid index from a source; a series is looked at, not
    copied. -/
def ofArray (v : Value) (source : Value) : SeriesM SeriesRef := do
  let r ← match v with
    | .series r => modifyGet fun s => s.view r ((s.column r).length - 1)
    | .list items => ofValues items
    | _ => throw .operands
  takeValid r source .absent

/-- A series that starts with a value and goes on with defaults; only the first entry is valid. -/
def mutable (v : Value) (n : Nat) : SeriesM SeriesRef := do
  let d := match v with
    | .float _ => Value.float notANumber
    | .cell (.float _) => Value.float notANumber
    | .int _ => Value.int 0
    | .bool _ => Value.int 0
    | _ => Value.absent
  let r ← replicate n d
  set r 0 v
  setValid r 0
  pure r

end PineEngine.SeriesRef
