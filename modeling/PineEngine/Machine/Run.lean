import PineEngine.Machine.Evaluate

/-! # Runs

Loading a script evaluates the call that describes it and starts a run over the bars. A step evaluates the
script at the current bar, lets the broker carry out its actions, and goes on to the next bar.

`stepNew` serves a market that moved on by one candle: every series that a register holds makes room for a
new entry, and the last bar but one is evaluated.
-/

namespace PineEngine.Machine

open Script

def new (mode : Mode) (market : Market) : Machine :=
  { mode, market }

def topScope : MachineM Scope := do
  pure { mutable := (← get).program.mutable }

/-- Loads a script. A broker that is there already cannot be set up. -/
def load (p : Program) : MachineM Unit := do
  let a := p.code.annotations
  modify fun m => { m with program := p, annotations := a }
  if let some header := a.header then
    let _ ← eval (← topScope) header
    if (← get).broker.isSome then throw .member
  reset

def step : MachineM Unit := do
  let _ ← eval (← topScope) (← get).program.code
  withBroker (do let _ ← Broker.step)
  modifyContext fun c => { c with bar := c.bar + 1 }

def runTo (last : Int) : Nat → MachineM Unit
  | 0 => pure ()
  | fuel + 1 => do
    if (← bar) < last then
      step
      runTo last fuel

def runBars : MachineM Unit := do
  let n ← barCount
  runTo n (n - (← bar)).toNat

def orderHistory (m : Machine) : List (List Order) :=
  match m.broker with
  | some { book := .ledger l, .. } => l.record
  | _ => []

/-- Runs through all bars. A machine that collects drawings draws the orders afterwards. -/
def run : MachineM Unit := do
  runBars
  let m ← get
  if m.mode == .plot && m.broker.isSome then drawOrders m.orderHistory

def scanInputs : MachineM (List Value) := do
  let scope ← topScope
  (← get).annotations.inputs.mapM (eval scope)

/-- Asks for the markets that the script wants besides its own. None can be had. -/
def scanMarkets : MachineM Unit := do
  let scope ← topScope
  (← get).annotations.securities.forM fun c => do
    let _ ← eval scope c
  reset

def onMarket (m : MarketM Unit) : MachineM Unit := do
  let s ← get
  let (r, market) := (m.run).run s.market
  set { s with market := market }
  MonadExcept.ofExcept r

def setOhlcv (columns : Fields) : MachineM Unit := do
  onMarket (Market.setOhlcv columns)
  reset

def clockTime : MachineM Int := do
  let c ← current
  (← onStore (c.timestamps.get (-1))).toInt

def nextClock : MachineM Value := do
  let t ← clockTime
  let span ← Value.arith .mul (← get).market.resolution (.int 60)
  Value.arith .add (.int t) span

/-- Makes room for a new entry in a series. A source takes its newest value; what was computed from a
    source cannot be moved on. -/
def stepSeries (r : SeriesRef) : MachineM Unit := do
  match ← onStore r.origin with
  | .plain => do
    let _ ← onStore (r.step none)
  | .computed => throw .member
  | .source s => do
    let v ← sourceAt s (.int 1)
    let _ ← onStore (r.step (some v))

/-- Evaluates the script for a market that moved on by one candle; gives the actions of the broker. -/
def stepNew : MachineM (List Action) := do
  let c ← current
  c.registers.forM fun r => do
    if let .series s := r.value then stepSeries s
  stepSeries c.timestamps
  let n ← barCount
  modifyContext fun c => { c with bar := n - 2 }
  step
  match (← get).broker with
  | some b => b.delivered
  | none => throw .member

end PineEngine.Machine
