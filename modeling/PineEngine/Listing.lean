import PineEngine.Json.Indented
import PineEngine.Json.Value
import PineEngine.Text.Word

/-! # Listings of exchanges

A listing is what is known of an exchange: its names, what it can do, its markets and the time spans of its
candles. Two tables are made of listings and of the pairs that a data service covers: one of the pairs by
exchange, one of the markets by exchange with all names of a market and the spans that its candles can be
had in.
-/

namespace PineEngine

structure Listing where
  key : String
  id : Json
  name : Json
  /-- Whether it can do a thing, by the name of the thing. -/
  has : Json
  timeframes : Json
  markets : Json
  failure : Option String := none
  /-- Whether nothing at all can be asked of it. -/
  unsupported : Bool := false

inductive Listing.Trouble where
  | unsupported (key : String)
  | unloadable (reason : String)
  | missing (key : String)
  | noFields (kind : String)
  | noAttribute (kind name : String)
  | noItems (kind : String)

namespace Listing

def Trouble.message : Trouble → String
  | unsupported key => key
  | unloadable reason => reason
  | missing key => Text.quoted key
  | noFields "str" => "string indices must be integers, not 'str'"
  | noFields "list" => "list indices must be integers or slices, not str"
  | noFields kind => "'" ++ kind ++ "' object is not subscriptable"
  | noAttribute kind name => "'" ++ kind ++ "' object has no attribute '" ++ name ++ "'"
  | noItems kind => "'" ++ kind ++ "' object is not iterable"

def kindOf (j : Json) : String :=
  j.toValue.typeName ""

def field (j : Json) (key : String) : Except Trouble Json :=
  match j with
  | .obj _ =>
    match j.field? key with
    | some v => .ok v
    | none => .error (.missing key)
  | j => .error (.noFields (kindOf j))

def members (j : Json) (name : String) : Except Trouble (List (String × Json)) :=
  match j with
  | .obj fields => .ok fields
  | j => .error (.noAttribute (kindOf j) name)

abbrev Coverage := List (String × List (String × Json))

def aliases (exchange pair : String) : List String :=
  match exchange with
  | "bitmex" =>
    (if pair.endsWith "-perpetual-futures" then [(pair.splitOn "-").headD pair] else []) ++
      (if pair == "btcusd-perpetual-futures" then ["xbtusd"] else [])
  | "bitflyer" => if pair == "btcfxjpy" then ["fxbtcjpy"] else []
  | _ => []

def Coverage.add (c : Coverage) (exchange pair : String) : Coverage :=
  let names := pair :: aliases exchange pair
  let put (symbols : List (String × Json)) : List (String × Json) :=
    names.foldl (fun acc n => Json.setField n (.str pair) acc) symbols
  match c with
  | [] => [(exchange, put [])]
  | (k, symbols) :: rest =>
    if k == exchange then (k, put symbols) :: rest else (k, symbols) :: Coverage.add rest exchange pair

def Coverage.ofEntries (j : Json) : Except Fault Coverage := do
  (← j.elements).foldlM (fun (c : Coverage) m => do
    match ← m.item "exchange", ← m.item "pair" with
    | .str exchange, .str pair => pure (c.add exchange pair)
    | _, _ => .error .operands) []

def Coverage.table (c : Coverage) : Json :=
  .obj (c.map fun (exchange, symbols) => (exchange, .obj symbols))

def bare (s : String) : String :=
  String.ofList (s.toList.filter fun c => Text.isWord c && c != '_')

def addName (ids : List String) : Json → Except Trouble (List String)
  | .str s =>
    let once (ids : List String) (s : String) : List String := if ids.contains s then ids else ids ++ [s]
    .ok (once (once ids s) (bare s))
  | j => .error (.noItems (kindOf j))

def isCovered (c : Coverage) (exchange : Json) (ids : List String) : Bool :=
  match exchange with
  | .str key =>
    match c.lookup key with
    | some symbols =>
      let known (s : String) : Bool := symbols.any (·.1 == s)
      ids.any fun s => known s || known (Text.lower s) || known (Text.upper s)
    | none => false
  | _ => false

def servedSpans : List Nat :=
  [1, 3, 5, 15, 30, 60, 120, 240, 360, 720, 1440, 4320, 10080]

def spanText (minutes : Nat) : String :=
  if 10080 ≤ minutes then toString (minutes / 10080) ++ "w"
  else if 1440 ≤ minutes then toString (minutes / 1440) ++ "d"
  else if 60 ≤ minutes then toString (minutes / 60) ++ "h"
  else toString minutes ++ "m"

/-- The spans that the candles of a market can be had in: those of the data service, or those of the
    exchange if it has candles of its own. -/
def spans (l : Listing) (covered : Bool) : Except Trouble (List String) := do
  if covered then return servedSpans.map spanText
  let support ← field l.has "fetchOHLCV"
  let emulated := match support with
    | .str "emulated" => true
    | _ => false
  if support.isTrue && !emulated then
    return (← members l.timeframes "keys").map (·.1)
  return []

def marketEntry (c : Coverage) (l : Listing) (name : String) (m : Json) : Except Trouble Json := do
  let id ← field m "id"
  let symbol ← field m "symbol"
  let ids ← [.str name, id, symbol].foldlM addName []
  let covered := isCovered c l.id ids
  pure (.obj [("ids", .arr (ids.map Json.str)), ("cryptowatch", .bool covered),
    ("resolutions", .arr ((← l.spans covered).map Json.str))])

def entry (c : Coverage) (l : Listing) : Except Trouble Json := do
  if l.unsupported then .error (.unsupported l.key)
  if let some reason := l.failure then .error (.unloadable reason)
  let markets ← (← members l.markets "items").mapM fun (name, m) => do
    pure (name, ← l.marketEntry c name m)
  let covered := match l.id with
    | .str key => c.any (·.1 == key)
    | _ => false
  pure (.obj [("name", l.name), ("ids", .arr [l.id]), ("cryptowatch", .bool covered),
    ("markets", .obj markets)])

def marketTable (c : Coverage) (ls : List Listing) : Json × List String :=
  let add (acc : List (String × Json) × List String) (l : Listing) : List (String × Json) × List String :=
    match l.entry c with
    | .ok e => (Json.setField l.key e acc.1, acc.2 ++ [l.key])
    | .error t => (acc.1, acc.2 ++ ["error: " ++ l.key ++ ": " ++ t.message])
  let (entries, lines) := ls.foldl add ([], [])
  (.obj entries, lines)

def coverageAddress : String :=
  "https://api.cryptowat.ch/markets"

structure Tables where
  files : List (String × String)
  lines : List String

def makeTables (pairs : Json) (ls : List Listing) : Except Fault Tables := do
  let c ← Coverage.ofEntries pairs
  let (markets, lines) := marketTable c ls
  pure ⟨[("cryptowatch-support.json", c.table.indented), ("exchange-support.json", markets.indented)], lines⟩

/-- The exchanges that can do a thing, each with all that it can do; unsupported ones are passed over. An
    exchange that does not tell ends the list. -/
def capable (thing : Option String) : List Listing → List String × Option Fault
  | [] => ([], none)
  | l :: rest =>
    if l.unsupported then capable thing rest
    else
      match thing, l.has.item (thing.getD "") with
      | none, _ => ([], some .index)
      | _, .error e => ([], some e)
      | _, .ok v =>
        let (lines, fault) := capable thing rest
        (if v.isTrue then l.key :: l.has.toValue.printed :: lines else lines, fault)

end Listing

end PineEngine
