import PineEngine.Series
import PineEngine.Value.Entry

/-! # Functions of series

Functions that compute a series, or a single value, from the history of series. `bars` is the number of
bars of the market; a result is as long as the market or as the series it is computed from.
-/

namespace PineEngine.Indicator

/-- The entries of a list between two positions, which count from the end if negative and stop at the
    ends. -/
def slice {α : Type} (xs : List α) (start stop : Int) : List α :=
  let clip (i : Int) : Nat :=
    if i < 0 then (i + xs.length).toNat else min i.toNat xs.length
  (xs.take (clip stop)).drop (clip start)

def upTo (valid : Int) : List Nat :=
  List.range (valid + 1).toNat

def abs (v : Value) : SeriesM Value := do
  match v with
  | .series r =>
    let c ← (← r.column).magnitudes
    pure (.series (← SeriesRef.make c (← r.valid) .plain))
  | v => v.magnitude

/-- The bars since a condition held, counted from one while it never held. For a single condition: the
    number of the bar if it holds, zero if not. -/
def barssince (bars : Nat) (condition : Value) : SeriesM SeriesRef := do
  match condition with
  | .series c =>
    let dest ← SeriesRef.replicate bars (.int 0)
    let _ ← (upTo (← c.valid)).foldlM (fun (count : Int) (i : Nat) => do
      let count := if ← c.holdsAt i then 0 else count + 1
      dest.set i (.int count)
      pure count) 0
    dest.setValid (← c.valid)
    pure dest
  | v =>
    if v.isTrue then SeriesRef.ofValues ((List.range bars).map fun (i : Nat) => .int (i + 1))
    else SeriesRef.replicate bars (.int 0)

/-- A second operand as a series: a single value stands at every bar. -/
def asSeries (bars : Nat) (v : Value) : SeriesM SeriesRef :=
  match v with
  | .series r => pure r
  | v => SeriesRef.replicate bars v

/-- Compares two series bar by bar with their entries one bar earlier. The first bar never counts. -/
def crossing (bars : Nat) (x : SeriesRef) (y : Value)
    (test : (now before : Value × Value) → Except Fault Value) : SeriesM SeriesRef := do
  let y ← asSeries bars y
  let s ← SeriesRef.mutable (.bool false) bars
  let last := min (← x.valid) (← y.valid)
  (upTo last).tail.forM fun i => do
    let x1 ← x.get i
    let y1 ← y.get i
    let x2 ← x.get ((i : Int) - 1)
    let y2 ← y.get ((i : Int) - 1)
    let v ← test (x1, y1) (x2, y2)
    let _ ← s.append v
  pure s

def crossTest (now before : Value × Value) : Except Fault Value := do
  let d1 ← Value.arith .sub now.1 now.2
  let d2 ← Value.arith .sub before.1 before.2
  Value.compare .lt (← Value.arith .mul d1 d2) (.int 0)

def turnTest (opNow opBefore : CompareOp) (now before : Value × Value) : Except Fault Value := do
  let v ← Value.compare opNow now.1 now.2
  if v.isTrue then Value.compare opBefore before.1 before.2 else pure v

def cross (bars : Nat) (x : SeriesRef) (y : Value) : SeriesM SeriesRef :=
  crossing bars x y crossTest

def crossover (bars : Nat) (x : SeriesRef) (y : Value) : SeriesM SeriesRef :=
  crossing bars x y (turnTest .gt .lt)

def crossunder (bars : Nat) (x : SeriesRef) (y : Value) : SeriesM SeriesRef :=
  crossing bars x y (turnTest .lt .gt)

/-- Whether a value is not a number. For a series the answers up to the valid index are added to the
    entries from the valid index on. -/
def na (v : Value) : SeriesM Value := do
  match v with
  | .series r =>
    let c ← r.column
    let valid ← r.valid
    let known := slice c.toList 0 (valid + 1)
    let answers ← known.mapM fun v => do pure (Value.bool (← v.isNaN))
    let rest := slice c.cells.toList valid c.size
    let a ← Column.ofValues answers
    let b ← columnOfCells c.cells.kind none rest
    let sum ← Column.arith .add (.column a) (.column b)
    pure (.series (← SeriesRef.make sum valid .plain))
  | v => do pure (.bool (← v.isNaN))

/-- A value with a substitute for what is not a number, up to the valid index. -/
def nz (v substitute : Value) : SeriesM Value := do
  match v with
  | .series r =>
    let entries := (← r.column).toList
    let valid ← r.valid
    let known ← (slice entries 0 (valid + 1)).mapM fun v => do
      pure (if ← v.isNaN then substitute else v)
    let dest ← SeriesRef.ofValues (known ++ slice entries (valid + 1) entries.length)
    dest.setValid valid
    pure (.series dest)
  | v => do pure (if ← v.isNaN then substitute else v)

/-- The larger of two entries, or the smaller one; a number wins over what is not a number. -/
def pick (larger : Bool) (k : Kind) (a b : Value) : Except Fault Value := do
  match k with
  | .text _ => .error .operands
  | _ =>
    let notNumber (v : Value) : Bool := match v with
      | .cell (.float x) | .float x => x.isNaN
      | _ => false
    if notNumber a then pure b
    else if notNumber b then pure a
    else
      let first ← Value.compare (if larger then .ge else .le) a b
      pure (if first.isTrue then a else b)

/-- The larger entries of two series, or the smaller ones. Single values are not accepted. -/
def extreme (larger : Bool) (x y : Value) : SeriesM SeriesRef := do
  match x, y with
  | .series a, .series b =>
    let ca ← a.column
    let cb ← b.column
    if ca.size != cb.size || ca.rowLen != cb.rowLen then throw .value
    let k := ca.cells.kind.join cb.cells.kind
    let entries ← (ca.cells.toList.zip cb.cells.toList).mapM fun (u, v) => pick larger k u v
    let c ← columnOfCells k ca.rowLen entries
    SeriesRef.make c (min (← a.valid) (← b.valid)) .plain
  | _, _ => throw .member

/-- The largest or smallest of some entries. What is not a number wins. -/
def extremeOf (larger : Bool) : List Value → Except Fault Value
  | [] => .error .value
  | .cell (.text _) :: _ => .error .operands
  | v :: rest => rest.foldlM (fun best w => do
      let isNumber (v : Value) : Bool := match v with
        | .cell (.float x) | .float x => !x.isNaN
        | _ => true
      if !isNumber best then pure best
      else if !isNumber w then pure w
      else
        let better ← Value.compare (if larger then .gt else .lt) w best
        pure (if better.isTrue then w else best)) v

/-- The entries that are the largest or smallest of their neighbourhood, `left` bars before to `right - 1`
    bars after them, moved on by `right` bars; elsewhere there is no number. -/
def pivot (larger : Bool) (source : SeriesRef) (left right : Int) : SeriesM SeriesRef := do
  let c ← source.column
  let n : Int := c.length
  if n < left + right + 1 then SeriesRef.replicate c.length (.float notANumber)
  else
    let entries := c.toList
    let positions := (List.range (n - right - left).toNat).map fun (k : Nat) => left + (k : Int)
    let found ← positions.mapM fun i => do
      let v ← c.get i
      let best ← extremeOf larger (slice entries (i - left) (i + right))
      let same ← Value.compare .eq v best
      pure (if same.isTrue then v else .float notANumber)
    SeriesRef.ofValues (List.replicate (left + right).toNat (.float notANumber) ++ found)

/-- A running mean in which the past counts `length - 1` times and each new entry once. It starts from
    zero; where an entry is not a number it is no number, and starts again after. -/
def rma (source : SeriesRef) (length : Int) : SeriesM SeriesRef := do
  let c ← source.column
  let n : Int := c.length
  if n ≤ length then source.copy
  else
    let weight ← Value.floatOfInt (length - 1)
    let start := List.replicate (length - 1).toNat (Value.float notANumber)
    let positions := (List.range (n - (length - 1)).toNat).map fun (k : Nat) => length - 1 + (k : Int)
    let means ← positions.foldlM (fun r i => do
      let v ← c.get i
      let p ← Value.itemOf r (i - 1)
      if ← v.isNaN then pure (r ++ [.float notANumber])
      else
        let p := if ← p.isNaN then .float 0.0 else p
        let sum ← Value.arith .add (← Value.arith .mul p (.float weight)) v
        pure (r ++ [← Value.arith .div sum (.int length)])) start
    let dest ← SeriesRef.ofValues means
    dest.setValid (← source.valid)
    pure dest

/-- The entry of a source when a condition held for the last time, or a number of times before. -/
def valuewhen (bars : Nat) (condition : Value) (source : SeriesRef) (occurrence : Int) :
    SeriesM SeriesRef := do
  match condition with
  | .series c =>
    let last := min (← c.valid) (← source.valid)
    let d ← source.default
    let (_, known) ← (upTo last).foldlM (fun (held, dest) i => do
      let held ← if ← c.holdsAt i then do pure (held ++ [← source.get i]) else pure held
      let v ←
        if occurrence < (held.length : Int) then Value.itemOf held (-occurrence - 1) else pure d
      pure (held, dest ++ [v])) (([] : List Value), ([] : List Value))
    let missing := (bars : Int) - (last + 1)
    let dest ← SeriesRef.ofValues (known ++ List.replicate missing.toNat d)
    dest.setValid last
    pure dest
  | v => if v.isTrue then throw .member else source.blank

end PineEngine.Indicator
