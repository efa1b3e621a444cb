import PineEngine.Machine.Run

/-! # Sessions

The life of a machine beside a market: it is prepared with a script and inputs, booted on the candles so far,
and moved on candle by candle.
-/

namespace PineEngine.Machine

open Script

/-- A machine that has loaded a script in order to describe its inputs. -/
def scanner (p : Program) : Except Fault Machine :=
  match ((load p).run).run (new .scan Market.unnamed) with
  | (.ok _, m) => .ok m
  | (.error e, _) => .error e

/-- Loads a script with inputs, and asks for the markets that it wants. -/
def prepare (p : Program) (inputs : Value) : MachineM Unit := do
  load p
  modify fun m => { m with userInputs := inputs }
  scanMarkets

def boot (columns : Fields) : MachineM Unit := do
  setOhlcv columns
  run

def moveOn (candle : Fields) : MachineM (List Action) := do
  onMarket (Market.updateOhlcv2 candle)
  stepNew

/-- Tells the broker what the outside world holds, and moves the market on. -/
def serve (holdings candle : Fields) : MachineM (List Action) := do
  withBroker (Broker.update holdings)
  moveOn candle

/-- Does the same with each of several things until it fails; gives what was found so far. -/
def each {α β : Type} (op : α → MachineM β) : List α → Machine → List β × Machine × Option Fault
  | [], m => ([], m, none)
  | a :: rest, m =>
    match ((op a).run).run m with
    | (.error e, m) => ([], m, some e)
    | (.ok b, m) =>
      let (bs, m, e) := each op rest m
      (b :: bs, m, e)

end PineEngine.Machine
