import PineEngine.Candles.Archive
import PineEngine.Venue

/-! # The relay

The relay keeps an archive of candles for every venue that it serves. A client opens a window on one
resolution of a venue and moves it on by asking for the candle of the next time: the candle that was last
so far is sent once more, because it may have changed since, and the new one comes after it.
-/

namespace PineEngine

abbrev Relay := List (String × Archive)

namespace Relay

/-- The relay of archives by the name of their venue, of which unknown ones are passed over. A resolution
    that is written as a number is a number. -/
def ofTables (tables : List (String × List (String × Candles))) : Relay :=
  tables.filterMap fun (name, archive) => do
    let v ← Venue.ofName? name
    pure (v.tickerId, archive.map fun (res, c) =>
      ((Decimal.readInt? res).elim (.text res) Value.int, c))

def archive (r : Relay) (tickerId : String) : Except Fault Archive :=
  match r.lookup tickerId with
  | some a => .ok a
  | none => .error .key

def onArchive {α : Type} (r : Relay) (tickerId : String) (op : ArchiveM α) : Except Fault α × Relay :=
  match r.archive tickerId with
  | .error e => (.error e, r)
  | .ok a =>
    let (result, a) := (op.run).run a
    (result, r.map fun (k, b) => if k == tickerId then (k, a) else (k, b))

def update (r : Relay) (tickerId : String) (res : Value) (batch : Fields) : Except Fault Unit × Relay :=
  r.onArchive tickerId (ArchiveM.update res batch)

def openMarket (r : Relay) (v : Venue) (args : List Value) : Except Fault Market := do
  let (symbol, resolution) ← v.arguments 3 args
  let columns ← (r.onArchive v.tickerId (ArchiveM.ohlcv resolution (.int Venue.windowLength))).1
  let column (f : CandleField) : Except Fault Track := do (← Fields.get columns f.key).items
  pure { v.market symbol resolution with
    candles := ⟨← column .time, ← column .open, ← column .high, ← column .low, ← column .close,
      ← column .volume⟩ }

/-- Moves a window on to a time, if the relay has the candle of that time and it is newer than the window;
    gives the time of the new candle. -/
def step (r : Relay) (v : Venue) (clock : Value) : MarketM Value := do
  let m ← get
  match ← (r.onArchive v.tickerId (ArchiveM.stepOhlcv m.resolution clock)).1 with
  | none => return .absent
  | some (last, new) =>
    let time ← Fields.get new "t"
    if ← Value.holds .le time (← Value.itemOf m.candles.time (-1)) then return .absent
    CandleField.all.forM fun f => do
      let a ← Fields.get last f.key
      let b ← Fields.get new f.key
      Market.modifyColumn f fun t => if t.isEmpty then .error .index else .ok (t.drop 1)
      Market.modifyColumn f fun t => Value.setItem t (-1) a
      Market.modifyColumn f fun t => .ok (t ++ [b])
    return time

end Relay

end PineEngine
