import PineEngine.Broker.Ledger

/-! # Brokers

A broker collects the actions of a bar. At the end of the bar a broker with a ledger carries them out; a
remote one hands them over and is told the position from outside.
-/

namespace PineEngine

structure BrokerSettings where
  pyramiding : Value := .int 0
  calcOnOrderFills : Value := .bool false
  calcOnEveryTick : Value := .bool true
  fillLimits : Value := .float 0.0
  quantityType : Value := .text "fixed"
  quantity : Value := .float 1.0
  currency : Value := .text "NONE"
  slippage : Value := .int 0
  commissionType : Value := .text "percent"
  commissionValue : Value := .text "commission_value"
  deriving Inhabited

inductive Book where
  /-- Nowhere: such a broker only collects actions. -/
  | absent
  | ledger (l : Ledger)
  /-- Elsewhere: the position as last told, and the actions of the last step, if there was one. -/
  | remote (size : Value) (delivered : Option (List Action))
  deriving Inhabited

structure Broker where
  settings : BrokerSettings := {}
  actions : List Action := []
  book : Book
  deriving Inhabited

/-- Operations of a broker; what they changed before they failed stays. -/
abbrev BrokerM := ExceptT Fault (StateM Broker)

instance : MonadLift (Except Fault) BrokerM :=
  ⟨fun r => match r with
    | .ok a => pure a
    | .error e => throw e⟩

namespace BrokerSettings

/-- Takes over the settings that a script names. A slippage changes the type of commission. -/
def update (s : BrokerSettings) (kws : Fields) : BrokerSettings :=
  let take (key : String) (old : Value) : Value :=
    match kws.getD key with
    | .absent => old
    | v => v
  { s with
    pyramiding := take "pyramiding" s.pyramiding
    calcOnOrderFills := take "calc_on_order_fills" s.calcOnOrderFills
    calcOnEveryTick := take "calc_on_every_tick" s.calcOnEveryTick
    fillLimits := take "backtest_fill_limits_assumption" s.fillLimits
    quantityType := take "default_qty_type" s.quantityType
    quantity := take "default_qty_value" s.quantity
    currency := take "currency" s.currency
    commissionType := match kws.getD "slippage" with
      | .absent => s.commissionType
      | _ => .float 0.0 }

def toFields (s : BrokerSettings) : Fields :=
  [("pyramiding", s.pyramiding), ("calc_on_order_fills", s.calcOnOrderFills),
   ("calc_on_every_tick", s.calcOnEveryTick), ("backtest_fill_limits_assumption", s.fillLimits),
   ("default_qty_type", s.quantityType), ("default_qty_value", s.quantity), ("currency", s.currency),
   ("slippage", s.slippage), ("commission_type", s.commissionType),
   ("commission_value", s.commissionValue)]

end BrokerSettings

namespace Broker

def simulated : Broker :=
  { book := .ledger {} }

def remote : Broker :=
  { book := .remote (.int 0) none }

/-- Takes over settings. Recalculation on fills is not supported. -/
def setup (kws : Fields) : BrokerM Unit := do
  modify fun b => { b with settings := b.settings.update kws }
  if (← get).settings.calcOnOrderFills.isTrue then
    throw (.script (.report "calc_on_order_fills is not supported"))

def addAction (a : Action) : BrokerM Unit :=
  modify fun b => { b with actions := b.actions ++ [a] }

def clearActions : BrokerM Unit :=
  modify fun b => { b with actions := [] }

/-- Asks for an entry at the market price; other kinds of entry are refused. -/
def entry (kws : Fields) : BrokerM Unit := do
  let given (key : String) : Bool := match kws.getD key with
    | .absent => false
    | _ => true
  if given "limit" then throw (.script .limitOrder)
  if given "stop" then throw (.script (.report "stop-limit order is not supported"))
  let group := (kws.lookup "oca_name").getD (.text "")
  let groupType := (kws.lookup "oca_type").getD (.text "none")
  if group.isTrue || groupType.isTrue then throw (.script .ocaOrder)
  addAction (kws.set "action" (.text "entry"))

def close (kws : Fields) : BrokerM Unit :=
  addAction (kws.set "action" (.text "close"))

def closeAll (kws : Fields) : BrokerM Unit :=
  addAction (kws.set "action" (.text "close_all"))

def positionSize (b : Broker) : Except Fault Value :=
  match b.book with
  | .absent => .error .unimplemented
  | .ledger l => l.positionSize
  | .remote size _ => .ok size

def clearPositions : BrokerM Unit := do
  match (← get).book with
  | .ledger l => modify fun b => { b with book := .ledger { l with positions := [] } }
  | _ => throw .member

def update (kws : Fields) : BrokerM Unit := do
  match (← get).book with
  | .remote _ d => do
    let size ← kws.get "position_size"
    modify fun b => { b with book := .remote size d }
  | _ => throw .member

/-- Ends a bar: the actions are carried out or handed over. Gives the numbers of the orders, if there is a
    ledger to number them. -/
def step : BrokerM (Option (List Nat)) := do
  let b ← get
  match b.book with
  | .absent => throw .unimplemented
  | .remote size _ => do
    set { b with actions := [], book := .remote size (some b.actions) }
    pure none
  | .ledger l => do
    let (actions, planned) := l.plan b.settings.quantity b.actions
    set { b with actions := actions }
    let orders ← planned
    clearActions
    let (r, l) := ((Ledger.commit orders).run).run l
    modify fun b => { b with book := .ledger l }
    pure (some (← r))

def delivered (b : Broker) : Except Fault (List Action) :=
  match b.book with
  | .remote _ (some actions) => .ok actions
  | _ => .error .member

def lastOrders (b : Broker) : List Order :=
  match b.book with
  | .ledger l => l.record.getLast?.getD []
  | _ => []

end Broker

end PineEngine
