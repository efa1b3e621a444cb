import PineEngine.Value.Entry

/-! # Candles

A candle is a time, four prices and a volume. Candles are kept column by column. A column grows when an
entry beyond its end is set; nothing stands in the gap.
-/

namespace PineEngine

abbrev Track := List Value

namespace Track

def set (t : Track) (i : Int) (v : Value) : Except Fault Track :=
  if (t.length : Int) ≤ i then .ok (t ++ List.replicate (i.toNat - t.length) .absent ++ [v])
  else Value.setItem t i v

def lastIndex (t : Track) (v : Value) : Except Fault Int :=
  go t.reverse
where
  /-- Looks from the end; the entries are given in reverse. -/
  go : List Value → Except Fault Int
    | [] => .ok (-1)
    | w :: rest => do
      if ← Value.holds .eq w v then pure rest.length else go rest

def nextIndex (t : Track) (v : Value) : Except Fault Int :=
  go t.reverse
where
  go : List Value → Except Fault Int
    | [] => .ok (-1)
    | w :: rest => do
      if ← Value.holds .le w v then
        pure (if rest.length + 1 == t.length then -1 else rest.length + 1)
      else go rest

/-- The last entries, as many as asked for. For none all are given, and for a number below zero all but
    the first ones. -/
def latest (t : Track) (count : Int) : Track :=
  if 0 < count then t.drop (t.length - count.toNat) else t.drop (-count).toNat

end Track

inductive CandleField where
  | time | open | high | low | close | volume
  deriving DecidableEq, Repr

namespace CandleField

def key : CandleField → String
  | .time => "t"
  | .open => "o"
  | .high => "h"
  | .low => "l"
  | .close => "c"
  | .volume => "v"

def all : List CandleField :=
  [.time, .open, .high, .low, .close, .volume]

def ofKey? (s : String) : Option CandleField :=
  all.find? (·.key == s)

end CandleField

structure Candles where
  time : Track := []
  opening : Track := []
  high : Track := []
  low : Track := []
  closing : Track := []
  volume : Track := []
  deriving Inhabited

namespace Candles

def column (c : Candles) : CandleField → Track
  | .time => c.time
  | .open => c.opening
  | .high => c.high
  | .low => c.low
  | .close => c.closing
  | .volume => c.volume

def setColumn (c : Candles) (f : CandleField) (t : Track) : Candles :=
  match f with
  | .time => { c with time := t }
  | .open => { c with opening := t }
  | .high => { c with high := t }
  | .low => { c with low := t }
  | .close => { c with closing := t }
  | .volume => { c with volume := t }

def ofColumns (f : CandleField → Track) : Candles :=
  ⟨f .time, f .open, f .high, f .low, f .close, f .volume⟩

def toFields (c : Candles) : Fields :=
  CandleField.all.map fun f => (f.key, .list (c.column f))

def candleAt (c : Candles) (i : Int) : Except Fault Fields :=
  CandleField.all.mapM fun f => do pure (f.key, ← Value.itemOf (c.column f) i)

/-- Candles out of rows: each row holds time, open, high, low, close and volume. The rows are brought to
    one kind of number first. -/
def ofRows (rows : List Value) : Except Fault Candles := do
  let c ← Column.ofValues rows
  let columnOf (k : Nat) : Except Fault Track :=
    match c.rowLen with
    | none =>
      match c.cells.get? k with
      | some _ => .error .operands
      | none => .error .index
    | some n =>
      if k < n then .ok ((List.range c.length).filterMap fun r => c.cells.get? (r * n + k))
      else .error .index
  let times ← (← columnOf 0).mapM fun v => do pure (Value.int (← v.toInt))
  pure ⟨times, ← columnOf 1, ← columnOf 2, ← columnOf 3, ← columnOf 4, ← columnOf 5⟩

end Candles

end PineEngine
