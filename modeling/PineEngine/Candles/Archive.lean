import PineEngine.Candles

/-! # The archive of candles

For each resolution the archive keeps candles. New candles are merged in at the place of their first time,
and at the beginning if that time is not there. Candles of a coarser resolution are computed from those of
a finer one: from the start of the last coarse candle on, every fine candle is added to the coarse candle
that it falls into.

A failing operation keeps what it changed before.
-/

namespace PineEngine

abbrev Archive := List (Value × Candles)

abbrev ArchiveM := ExceptT Fault (StateM Archive)

instance : MonadLift (Except Fault) ArchiveM :=
  ⟨fun r => match r with
    | .ok a => pure a
    | .error e => throw e⟩

namespace Archive

def find? (a : Archive) (res : Value) : Option Candles :=
  (List.find? (fun (r, _) => r.same res) a).map (·.2)

def put (a : Archive) (res : Value) (c : Candles) : Archive :=
  match a with
  | [] => [(res, c)]
  | (r, d) :: rest => if r.same res then (r, c) :: rest else (r, d) :: put rest res c

end Archive

namespace ArchiveM

def candles (res : Value) : ArchiveM Candles := do
  if !res.isKey then throw .operands
  match (← get).find? res with
  | some c => pure c
  | none => throw .key

def candlesOrNew (res : Value) : ArchiveM Candles := do
  if !res.isKey then throw .operands
  match (← get).find? res with
  | some c => pure c
  | none => do
    modify (·.put res {})
    pure {}

def setEntry (res : Value) (f : CandleField) (i : Int) (v : Value) : ArchiveM Unit := do
  let c ← candles res
  let t ← (c.column f).set i v
  modify (·.put res (c.setColumn f t))

def ohlcv (res count : Value) : ArchiveM Fields := do
  let c ← candles res
  let n ← match count with
    | .int n => pure n
    | .bool b => pure (if b then 1 else 0)
    | _ => throw .operands
  pure (Candles.ofColumns fun f => (c.column f).latest n).toFields

def stepOhlcv (res clock : Value) : ArchiveM (Option (Fields × Fields)) := do
  let c ← candles res
  let i ← c.time.lastIndex clock
  if i ≤ 0 then pure none
  else do pure (some (← c.candleAt (i - 1), ← c.candleAt i))

def update (res : Value) (batch : Fields) : ArchiveM Unit := do
  let target ← candlesOrNew res
  let times ← (← batch.get "t").items
  let start ← target.time.lastIndex (← Value.itemOf times 0)
  let start := if start < 0 then 0 else start
  (List.range times.length).forM fun i =>
    CandleField.all.forM fun f => do
      let v ← (← batch.get f.key).item i
      setEntry res f (start + i) v

structure Bucket where
  opening : Value := .int 0
  closing : Value := .int 0
  high : Value := .int 0
  low : Value := .int 0
  volume : Value := .int 0

namespace Bucket

def start (c : Candles) (i : Nat) : Except Fault Bucket := do
  pure ⟨← Value.itemOf c.opening i, ← Value.itemOf c.closing i, ← Value.itemOf c.high i,
    ← Value.itemOf c.low i, ← Value.itemOf c.volume i⟩

def add (b : Bucket) (c : Candles) (i : Nat) : Except Fault Bucket := do
  let closing ← Value.itemOf c.closing i
  let h ← Value.itemOf c.high i
  let high := if ← Value.holds .gt h b.high then h else b.high
  let l ← Value.itemOf c.low i
  let low := if ← Value.holds .lt l b.low then l else b.low
  let volume ← Value.arith .add b.volume (← Value.itemOf c.volume i)
  pure ⟨b.opening, closing, high, low, volume⟩

end Bucket

def writeBucket (res : Value) (ti : Int) (time : Value) (b : Bucket) : ArchiveM Unit := do
  setEntry res .time ti time
  setEntry res .open ti b.opening
  setEntry res .close ti b.closing
  setEntry res .high ti b.high
  setEntry res .low ti b.low
  setEntry res .volume ti b.volume

/-- The last fine candle at or before a time that starts a coarse one; the first candle if there is none. -/
def startBefore (source : Candles) (span target : Value) : Nat → Except Fault Nat
  | 0 => .ok 0
  | si + 1 => do
    let t ← Value.itemOf source.time (si + 1)
    let found ← if ← Value.holds .le t target then starts t span else pure false
    if found then pure (si + 1) else startBefore source span target si
where
  starts (t span : Value) : Except Fault Bool := do
    Value.holds .eq (← Value.arith .mod t span) (.int 0)

def firstStart (source : Candles) (span : Value) : Except Fault Nat :=
  go source.time 0
where
  go : List Value → Nat → Except Fault Nat
    | [], _ => .error .unset
    | t :: rest, i => do
      if ← startBefore.starts t span then pure i else go rest (i + 1)

/-- Adds the fine candles at the given positions; gives the next position and the open bucket. -/
def fillBuckets (sourceRes targetRes span : Value) :
    List Nat → Int → Bucket → ArchiveM (Int × Bucket)
  | [], ti, b => pure (ti, b)
  | i :: rest, ti, b => do
    let source ← candles sourceRes
    let t ← Value.itemOf source.time i
    if ← startBefore.starts t span then
      let ti ←
        if b.opening.isTrue then do
          writeBucket targetRes ti (← Value.arith .sub t span) b
          pure (ti + 1)
        else pure ti
      fillBuckets sourceRes targetRes span rest ti (← Bucket.start (← candles sourceRes) i)
    else fillBuckets sourceRes targetRes span rest ti (← b.add source i)

def downsample (sourceRes targetRes : Value) : ArchiveM Unit := do
  let source ← candles sourceRes
  if !targetRes.isKey then throw .operands
  let known := (← get).find? targetRes
  let n := source.time.length
  let span ← Value.arith .mul targetRes (.int 60)
  let (ti, lastTime) ← match known with
    | some target => do
      let ti : Int := target.time.length - 1
      pure (ti, ← Value.itemOf target.time ti)
    | none => do
      modify (·.put targetRes {})
      pure (0, .int 0)
  let si ←
    if lastTime.isTrue then
      if n == 0 then throw .index else startBefore source span lastTime (n - 1)
    else firstStart source span
  let positions := (List.range n).drop si
  let (ti, b) ← fillBuckets sourceRes targetRes span positions ti {}
  if b.opening.isTrue then
    let before ← Value.itemOf (← candles targetRes).time (ti - 1)
    writeBucket targetRes ti (← Value.arith .add before span) b

end ArchiveM

end PineEngine
