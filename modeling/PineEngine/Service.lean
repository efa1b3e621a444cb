import PineEngine.Json.Reader
import PineEngine.Json.Value
import PineEngine.Machine.Session
import PineEngine.Service.Cache

/-! # The service

Machines are installed, booted with candles and then stepped with every new candle, each by a request of its
own. A request is a path with a JSON body; an answer is a status with a JSON object. Installed machines are
kept in a cache and are named by a text that the outside world chooses.

A request that fails keeps what it changed before it failed: a machine whose step failed stays at that bar.
-/

namespace PineEngine

open Script

structure Service where
  /-- What is known of exchanges, by name in small letters. -/
  exchanges : Json := .obj []
  machines : Cache Machine := {}
  limit : Nat := 256

structure Request where
  path : String
  body : Option Json
  ident : String
  clock : Json

inductive Reply where
  | body (fields : List (String × Json))
  | fault (e : Fault)
  | missing
  | unknown

structure Response where
  status : Nat
  reply : Reply

def Reply.missingText : String :=
  "Not found in cache"

abbrev ServiceM := ExceptT Fault (StateM Service)

instance : MonadLift (Except Fault) ServiceM := ⟨MonadExcept.ofExcept⟩

namespace Request

def json (r : Request) : Except Fault Json :=
  match r.body with
  | some j => .ok j
  | none => .error .badRequest

def item (r : Request) (key : String) : Except Fault Json := do
  (← r.json).item key

def compile (code : Json) : Except Fault Program :=
  match code with
  | .str s => Script.compile s
  | _ => .error .operands

end Request

namespace Service

/-- The markets of an exchange that have a name. A market is also found by any of its ids in small letters. -/
def marketsNamed (name : String) : List (String × Json) → Except Fault (List Json)
  | [] => .ok []
  | (key, market) :: rest => do
    let found ←
      if name == key then pure true
      else do
        let ids ← (← market.item "ids").elements
        anyNamed ids
    let more ← marketsNamed name rest
    pure (if found then market :: more else more)
where
  /-- Whether one of the ids is the name in small letters. Ids after it are not looked at. -/
  anyNamed : List Json → Except Fault Bool
    | [] => .ok false
    | i :: rest => do
      if (← i.lower) == name then pure true else anyNamed rest

/-- Answers which exchanges, which markets of an exchange or which markets of a name there are. -/
def exchangeSupport (r : Request) : ServiceM Reply := do
  let body ← r.json
  let exchange ← body.getField "exchange"
  let known := (← get).exchanges
  if !exchange.isTrue then
    let names ← known.members
    return .body [("exchanges", .arr (names.map fun (k, _) => .str k))]
  let key ← exchange.lower
  match ← known.getField key with
  | .null => return .body [("markets", .arr [])]
  | found =>
    match ← body.getField "market" with
    | .null => return .body [("markets", ← found.item "markets")]
    | market =>
      let name ← market.lower
      let markets ← (← found.item "markets").members
      return .body [("markets", .arr (← marketsNamed name markets))]

def scanned (code : Json) : Except Fault Machine := do
  let m ← Machine.scanner (← Request.compile code)
  let (r, m) := (Machine.scanInputs.run).run m
  let _ ← r
  pure m

def scanInput (r : Request) : ServiceM Reply := do
  let m ← scanned (← r.item "code")
  let setting (key : String) (default : Value) : Except Fault Json :=
    ((m.header.lookup key).getD default).toJson
  let strategy : List (String × Json) := [
    ("default_qty_value", ← setting "default_qty_value" (.float 1.0)),
    ("pyramiding", .int 0),
    ("max_bars_back", ← setting "max_bars_back" (.int 0))]
  return .body [("params", .obj [
    ("exchange", .str "BITMEX"), ("symbol", .str "XBTUSD"), ("resolution", .int 30),
    ("strategy", .obj strategy), ("inputs", .obj [])])]

def marketOf (args : Json) : Except Fault Market := do
  match (← args.elements).map Json.toValue with
  | [] => pure {}
  | [name] => pure { name }
  | [name, symbol] => pure { name, symbol }
  | [name, symbol, resolution] => pure { name, symbol, resolution }
  | _ => .error .operands

def register (ident : String) (m : Machine) : ServiceM Unit := do
  modify fun s => { s with machines := s.machines.put ident m }
  let s ← get
  if s.limit < s.machines.size then throw .member

def install (r : Request) : ServiceM Reply := do
  let code ← r.item "code"
  let inputs ← r.item "inputs"
  let market ← r.item "market"
  let p ← Request.compile code
  let market ← marketOf market
  let (made, m) := ((Machine.prepare p inputs.toValue).run).run (Machine.new .plain market)
  let _ ← made
  register r.ident m
  return .body [("vm", .str r.ident), ("markets", .arr []), ("server_clock", r.clock)]

def use (name : Json) : ServiceM (Option (String × Machine)) := do
  match name with
  | .str ident =>
    match (← get).machines.get? ident with
    | some m =>
      modify fun s => { s with machines := s.machines.put ident m }
      return some (ident, m)
    | none => return none
  | .arr _ | .obj _ => throw .operands
  | _ => return none

def onMachine {α : Type} (ident : String) (m : Machine) (op : MachineM α) : ServiceM α := do
  let (r, m) := (op.run).run m
  modify fun s => { s with machines := s.machines.put ident m }
  MonadExcept.ofExcept r

def touch (r : Request) : ServiceM Reply := do
  match ← use (← r.item "vmid") with
  | none => return .missing
  | some _ => return .body [("server_clock", r.clock)]

def columnsOf (j : Json) : Except Fault Fields := do
  pure (Json.toValueFields (← j.members))

def boot (r : Request) : ServiceM Reply := do
  let vmid ← r.item "vmid"
  let ohlcv ← r.item "ohlcv"
  match ← use vmid with
  | none => return .missing
  | some (ident, m) =>
    onMachine ident m do
      Machine.boot (← columnsOf ohlcv)
      modify fun m => { m with broker := some Broker.remote }
    return .body [("server_clock", r.clock)]

def holdingsOf (m : Machine) (update : Json) : Except Fault Fields :=
  if m.broker.isNone then .error .member
  else
    match update with
    | .obj fields => .ok (Json.toValueFields fields)
    | _ => .error .operands

def step (r : Request) : ServiceM Reply := do
  let vmid ← r.item "vmid"
  let update ← r.item "broker"
  let ohlcv2 ← r.item "ohlcv2"
  match ← use vmid with
  | none => return .missing
  | some (ident, m) =>
    let actions ← onMachine ident m do
      Machine.withBroker (Broker.update (← holdingsOf (← get) update))
      Machine.moveOn (← columnsOf ohlcv2)
    let actions ← Value.toJsonItems (actions.map Value.dict)
    return .body [("actions", .arr actions), ("server_clock", r.clock)]

def route? : String → Option (Nat × (Request → ServiceM Reply))
  | "/exchange-support" => some (200, exchangeSupport)
  | "/scan-input" => some (200, scanInput)
  | "/install-vm" => some (200, install)
  | "/touch-vm" => some (500, touch)
  | "/boot-vm" => some (500, boot)
  | "/step-vm" => some (500, step)
  | _ => none

def handle (r : Request) (s : Service) : Response × Service :=
  match route? r.path with
  | none => (⟨404, .unknown⟩, s)
  | some (failure, op) =>
    match ((op r).run).run s with
    | (.ok .missing, s) => (⟨205, .missing⟩, s)
    | (.ok reply, s) => (⟨200, reply⟩, s)
    | (.error e, s) => (⟨failure, .fault e⟩, s)

end Service

end PineEngine
