import PineEngine.Json.Value
import PineEngine.Market

/-! # Venues

A venue trades one symbol and sells its history of candles over the web. Each venue has its own way to ask
for candles and to write them. A request that fails, or whose answer cannot be used, is made again.
-/

namespace PineEngine

inductive Venue where
  | bitmex
  | bitflyer
  deriving DecidableEq, Repr

inductive WebAnswer where
  | json (j : Json)
  | failed

/-- What became of a request that is repeated: the addresses that were asked, and the first answer of use. -/
structure Fetched (α : Type) where
  asked : List String
  outcome : Option α

namespace Venue

def all : List Venue :=
  [bitmex, bitflyer]

def name : Venue → String
  | bitmex => "BITMEX"
  | bitflyer => "BITFLYER"

def symbol : Venue → String
  | bitmex => "XBTUSD"
  | bitflyer => "FXBTCJPY"

def tickerId (v : Venue) : String :=
  v.name ++ ":" ++ v.symbol

def mintick : Venue → Value
  | bitmex => .float 0.5
  | bitflyer => .int 1

def ofName? (s : String) : Option Venue :=
  all.find? (·.name == s)

def market (v : Venue) (symbol resolution : Value) : Market :=
  { name := .text v.name, symbol, resolution, mintick := some v.mintick }

def address (v : Venue) (resolution start stop : String) : String :=
  match v with
  | bitmex => "https://www.bitmex.com/api/udf/history?symbol=XBTUSD&resolution=" ++ resolution ++
      "&from=" ++ start ++ "&to=" ++ stop
  | bitflyer => "https://api.cryptowat.ch/markets/bitflyer/btcfxjpy/ohlc?periods=" ++ resolution ++
      "&after=" ++ start ++ "&before=" ++ stop

/-- A resolution as an address states it: one venue counts days from one day on, the other seconds. -/
def span (v : Venue) (resolution : Value) : Except Fault String :=
  match v with
  | bitmex => do
    if ← Value.holds .ge resolution (.int 1440) then
      let days ← Value.arith .div (← Value.arith .div resolution (.int 60)) (.int 24)
      pure (toString (← days.toInt) ++ "D")
    else pure resolution.printed
  | bitflyer => do
    pure (← Value.arith .mul resolution (.int 60)).printed

def candlesOf (rows : Json) : Except Fault Candles :=
  match rows with
  | .arr items => Candles.ofRows (Json.toValues items)
  | _ => .error .index

def read (v : Venue) (span : String) (j : Json) : Except Fault Fields :=
  match v with
  | bitmex => do
    match ← j.item "s" with
    | .str "ok" => pure (Json.toValueFields (← j.members))
    | _ => .error (.market "UDF refused")
  | bitflyer => do
    match ← j.getField "result" with
    | .null => .error (.market "missing result")
    | result =>
      match ← result.getField span with
      | .null => .error (.market "invalid result")
      | rows => do
        pure (← candlesOf rows).toFields

def ask {α : Type} (url : String) (use : Json → Except Fault α) : List WebAnswer → Fetched α
  | [] => ⟨[url], none⟩
  | .failed :: rest =>
    let more := ask url use rest
    { more with asked := url :: more.asked }
  | .json j :: rest =>
    match use j with
    | .ok a => ⟨[url], some a⟩
    | .error _ =>
      let more := ask url use rest
      { more with asked := url :: more.asked }

/-- Fetches the candles between two times; the answers are given in the order in which they come. -/
def fetch (v : Venue) (resolution start stop : Value) (answers : List WebAnswer) :
    Except Fault (Fetched Fields) := do
  let span ← v.span resolution
  pure (ask (v.address span start.printed stop.printed) (v.read span) answers)

def windowLength : Nat := 256

structure Direct where
  market : Market
  data : Value

def readDirect (v : Venue) (m : Market) (span : String) (j : Json) : Except Fault Direct :=
  match v with
  | bitmex => .ok ⟨m, j.toValue⟩
  | bitflyer => do
    let found (c : Candles) : Direct := ⟨{ m with candles := c }, .dict c.toFields⟩
    let result ← j.getField "result"
    if !result.isTrue then return found {}
    let rows ← result.getField span
    if !rows.isTrue then return found {}
    return found (← candlesOf rows)

def directAddress (v : Venue) (resolution now : Value) : Except Fault (String × String) :=
  let back (seconds : Value) : Except Fault Value := do
    Value.arith .sub now (← Value.arith .mul seconds (.int windowLength))
  match v with
  | bitmex => do
    let since ← back (← Value.arith .mul resolution (.int 60))
    let span ←
      if ← Value.holds .ge resolution (.int 1440) then
        pure ((← Value.arith .div resolution (.int 1440)).printed ++ "D")
      else pure resolution.printed
    pure (v.address span since.printed now.printed, span)
  | bitflyer => do
    let seconds ← Value.arith .mul resolution (.int 60)
    let since ← back seconds
    let span := seconds.printed
    pure (v.address span (← Value.arith .sub since (.int 1)).printed
      (← Value.arith .add now (.int 1)).printed, span)

def arguments (v : Venue) (most : Nat) (args : List Value) : Except Fault (Value × Value) :=
  if most < args.length then .error .operands
  else .ok (args[0]?.getD (.text v.symbol), args[1]?.getD (.int 60))

def openDirect (v : Venue) (args : List Value) (now : Value) (answers : List WebAnswer) :
    List String × Except Fault (Option Direct) :=
  let prepared : Except Fault (Market × String × String) := do
    let (symbol, resolution) ← v.arguments 2 args
    let (url, span) ← v.directAddress resolution now
    pure (v.market symbol resolution, url, span)
  match prepared with
  | .error e => ([], .error e)
  | .ok (m, url, span) =>
    ([url], match answers with
      | [] => .ok none
      | .failed :: _ => .error .request
      | .json j :: _ => (v.readDirect m span j).map some)

end Venue

end PineEngine
