import PineEngine.Candles
import PineEngine.Candles.Resolution
import PineEngine.Frame

/-! # Markets

A market has a name, a symbol, a resolution and a window of candles. The window is replaced as a whole, or
moved on by one candle.
-/

namespace PineEngine

structure Market where
  name : Value := .text "MARKET"
  symbol : Value := .text "SYMBOL"
  resolution : Value := .int 240
  /-- The least step of a price; `none` if the market does not tell it. -/
  mintick : Option Value := none
  candles : Candles := {}
  deriving Inhabited

abbrev MarketM := ExceptT Fault (StateM Market)

instance : MonadLift (Except Fault) MarketM :=
  ⟨fun r => match r with
    | .ok a => pure a
    | .error e => throw e⟩

namespace Market

def blank (name symbol resolution : Value) : Market :=
  ⟨name, symbol, resolution, some (.float 0.0), Candles.ofColumns fun _ => [.int 0]⟩

/-- A market of no particular name, with a single candle of zeros. -/
def unnamed : Market :=
  blank (.text "MARKET") (.text "SYMBOL") (.int 240)

def size (m : Market) : Nat :=
  m.candles.time.length

/-- A column, or the entry that stands a number of places before its end. -/
def column (m : Market) (f : CandleField) (count : Value) : Except Fault Value :=
  if count.isTrue then
    match count.whole? with
    | some n => Value.itemOf (m.candles.column f) (-n)
    | none => .error .operands
  else .ok (.list (m.candles.column f))

def tickerId (m : Market) : Except Fault String :=
  match m.name, m.symbol with
  | .text a, .text b => .ok (a ++ ":" ++ b)
  | _, _ => .error .operands

def period (m : Market) : Except Fault Value :=
  Resolution.read m.resolution

def leastStep (m : Market) : Except Fault Value :=
  match m.mintick with
  | some v => .ok v
  | none => .error .unimplemented

def frame (m : Market) : Except Fault Frame :=
  Frame.ofColumns [("unixtime", m.candles.time), ("open", m.candles.opening), ("high", m.candles.high),
    ("low", m.candles.low), ("close", m.candles.closing), ("volume", m.candles.volume)]

def fieldOf (key : String) : Except Fault CandleField :=
  match CandleField.ofKey? key with
  | some f => .ok f
  | none => .error .key

def modifyColumn (f : CandleField) (g : Track → Except Fault Track) : MarketM Unit := do
  let t ← g ((← get).candles.column f)
  modify fun m => { m with candles := m.candles.setColumn f t }

def setOhlcv (columns : Fields) : MarketM Unit :=
  columns.forM fun (key, entries) => do
    let f ← fieldOf key
    modifyColumn f fun _ => .ok []
    let entries ← entries.elements
    modifyColumn f fun _ => .ok entries

/-- Moves the given columns of the window on by one: the oldest entry is dropped, and the last two are
    replaced. -/
def updateOhlcv2 (columns : Fields) : MarketM Unit :=
  columns.forM fun (key, entries) => do
    let f ← fieldOf key
    modifyColumn f fun t => if t.isEmpty then .error .index else .ok (t.drop 1)
    modifyColumn f fun t => do Value.setItem t (-2) (← entries.item 0)
    modifyColumn f fun t => do Value.setItem t (-1) (← entries.item 1)

end Market

end PineEngine
