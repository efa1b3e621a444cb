import PineEngine.Machine

/-! # Built-in variables at a bar

What the built-in variables tell about the bar, the market and the orders.
-/

namespace PineEngine.Machine

open Builtin

def meanOf (m : Market) (fields : List CandleField) : Except Fault (List Value) :=
  go (fields.map m.candles.column) (m.candles.column (fields.headD .time)).length
where
  /-- The means of the first entries, as long as every column has one; at most `n` of them. -/
  go (columns : List Track) : Nat → Except Fault (List Value)
    | 0 => .ok []
    | n + 1 =>
      match columns.mapM List.head? with
      | some heads => do
        let v ← Value.arith .div (← Value.sum heads) (.float heads.length.toFloat)
        pure (v :: (← go (columns.map (·.drop 1)) n))
      | none => .ok []

def sourceFields : Source → List CandleField
  | .open => [.open]
  | .high => [.high]
  | .low => [.low]
  | .close => [.close]
  | .hl2 => [.high, .low]
  | .hlc3 => [.high, .low, .close]
  | .ohlc4 => [.open, .high, .low, .close]
  | .time => [.time]

/-- A source as a series. The times are always the same series. -/
def source (s : Source) : MachineM Value := do
  let m := (← get).market
  match s with
  | .time => do pure (.series (← current).timestamps)
  | s =>
    let values ← match sourceFields s with
      | [f] => pure (m.candles.column f)
      | fs => meanOf m fs
    pure (.series (← sourceSeries s values))

/-- The value of a source a number of places before the end; all of it if the number is zero. A mean of
    more than two columns has no single value. -/
def sourceAt (s : Source) (count : Value) : MachineM Value := do
  let m := (← get).market
  if count.isTrue then
    match s, sourceFields s with
    | _, [f] => m.column f count
    | .hl2, _ => do
      let h ← m.column .high count
      let l ← m.column .low count
      Value.arith .div (← Value.arith .add h l) (.float 2.0)
    | _, _ => throw .operands
  else source s

def clock (part : ClockPart) : MachineM Value := do
  let c ← current
  let t ← onStore (c.timestamps.get c.bar)
  match part with
  | .hour => Value.arith .div (← Value.arith .mod t (.int 86400)) (.int 3600)
  | .minute => Value.arith .div (← Value.arith .mod t (.int 3600)) (.int 60)
  | .second => Value.arith .mod t (.int 60)

/-- The position of the broker: at the first bar a series that starts with it. -/
def positionSize : MachineM Value := do
  match (← get).broker with
  | none => pure (.float 0.0)
  | some b =>
    let size ← b.positionSize
    if (← bar) == 0 then do
      let n ← barCount
      pure (.series (← onStore (SeriesRef.mutable size n)))
    else pure size

def variableValue (v : Variable) : MachineM Value := do
  match v with
  | .constant v => pure v
  | .clock part => clock part
  | .mintick => (← get).market.leastStep
  | .source s => source s
  | .period => (← get).market.period
  | .tickerId => do pure (.text (← (← get).market.tickerId))
  | .positionSize => positionSize
  | .trueRange => throw .operands
  | .unavailable => throw .unimplemented

/-- The value of a built-in variable when nothing is known about a market. -/
def variableAlone (v : Variable) : Except Fault Value :=
  match v with
  | .unavailable => .error .unimplemented
  | v => .ok (v.folded?.getD .absent)

/-- The value of a source a number of places before the end. Other variables have no history. -/
def variableAt (v : Variable) (count : Value) : MachineM Value :=
  match v with
  | .source s => sourceAt s count
  | _ => throw .operands

end PineEngine.Machine
