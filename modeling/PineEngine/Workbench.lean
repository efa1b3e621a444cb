import PineEngine.Chart.Drawings
import PineEngine.Column.Print
import PineEngine.Machine.Session
import PineEngine.Page
import PineEngine.Venue.Relay

/-! # The workbench

A script is tried out in two steps: a form asks for its inputs, for a market and for a resolution, and a
chart shows what it draws on that market. A script that cannot be used is answered with the reason.
-/

namespace PineEngine

inductive Workbench.Reply where
  | page (text : String)
  | figure (f : Chart.Figure)
  /-- What went wrong in a way that is no fault of the script. -/
  | fault (e : Fault)
  | nothing

structure Workbench.Response where
  status : Nat
  reply : Workbench.Reply

structure Workbench where
  relay : Relay
  exchanges : Json

inductive Workbench.Request where
  | get (path : String)
  | post (path : String) (form : List (String × String))

namespace Workbench

def bare (status : Nat) : Response :=
  ⟨status, .nothing⟩

def found (text : String) : Response :=
  ⟨200, .page text⟩

def failure (e : Fault) : Response :=
  match e with
  | .script _ | .argument _ => found (Page.failure (e.message?.getD ""))
  | e => ⟨200, .fault e⟩

def firstSymbol : String :=
  Venue.bitmex.tickerId

def resolutions : List Nat :=
  [1, 3, 5, 15, 30, 60, 120, 240, 360, 720, 1440]

def equal (s : Store) (a b : Value) : Except Fault Bool :=
  match b with
  | .series r =>
    match (s.column r).toList with
    | [v] => .ok (v.same a)
    | _ => .error .value
  | b => .ok (a.same b)

def choices (s : Store) (default options : Value) : Except Fault (List Page.Choice) := do
  (← options.elements).mapM fun v => do
    pure ⟨s.printed v, ← equal s v default⟩

def truth (s : Store) : Value → Except Fault Bool
  | .series r =>
    match (s.column r).cells.toList with
    | [v] => .ok v.isTrue
    | _ => .error .value
  | v => .ok v.isTrue

def entry (s : Store) (spec : Value) : Except Fault Page.Entry := do
  let fields := match spec with
    | .dict fields => fields
    | _ => []
  let text (key : String) : String := s.printed (Fields.getD fields key)
  let default := Fields.getD fields "defval"
  let options := Fields.getD fields "options"
  let control ← match Fields.getD fields "type" with
    | .text "integer" | .text "float" => pure (Page.Control.number (text "minval") (text "maxval"))
    | .text "source" => do pure (.source (← choices s default options))
    | .text "string" => do
      if ← truth s options then pure (.options (← choices s default options)) else pure .text
    | .text "bool" => do pure (.check (← truth s default))
    | _ => pure .nothing
  pure ⟨text "title", text "defval", control⟩

def evaluate (code : String) : Except Fault String := do
  let m ← Machine.scanner (← Script.compile code)
  let (r, m) := (Machine.scanInputs.run).run m
  let inputs ← r
  pure (Page.form
    { title := m.store.printed m.title
      code
      symbols := Venue.all.map fun v => ⟨v.tickerId, v.tickerId == firstSymbol⟩
      resolutions := ← resolutions.mapM fun (n : Nat) => do
        pure (⟨toString n, n == 30⟩, ← Resolution.write (.int n))
      entries := ← inputs.mapM (entry m.store) })

def openMarket (w : Workbench) (tickerId : String) (resolution : Value) : Except Fault Market := do
  let [name, symbol] := tickerId.splitOn ":" | .error .value
  let some v := Venue.ofName? name | .error .key
  w.relay.openMarket v [.text symbol, resolution]

def run (w : Workbench) (form : List (String × String)) : Except Fault Chart.Picture := do
  let code := (form.lookup "code").getD ""
  let tickerId := (form.lookup "symbol").getD firstSymbol
  let resolution := match (form.lookup "resolution").bind Decimal.readInt? with
    | some n => Value.int n
    | none => .absent
  let inputs := form.filter fun (k, _) => k != "code" && k != "symbol" && k != "resolution"
  let p ← Script.compile code
  let market ← w.openMarket tickerId resolution
  let play : MachineM Bool := do
    Machine.load p
    modify fun m => { m with
      userInputs := .dict (inputs.map fun (k, v) => (k, .text v)), broker := some Broker.simulated }
    Machine.run
    Machine.truth (← get).overlay
  let (r, m) := (play.run).run (Machine.new .plot market)
  let overlay ← r
  let draw : ChartM (Except Fault Chart.Picture) := do
    Chart.drawRun m overlay
    pure (← Chart.create (.text "chart.html") (.text "html")).2
  (← ((draw.run).run Chart.blank).1)

def forms : List String :=
  ["/evaluate", "/run"]

def pages : List String :=
  ["/", "/exchange-support"]

def pathOf (address : String) : String :=
  (address.splitOn "?").headD ""

def handle (w : Workbench) : Request → Response
  | .get address =>
    match pathOf address with
    | "/" => found Page.landing
    | "/exchange-support" =>
      match Page.exchanges? w.exchanges with
      | some text => found text
      | none => bare 500
    | path => bare (if forms.contains path then 405 else 404)
  | .post address form =>
    match pathOf address with
    | "/evaluate" =>
      match form.lookup "code" with
      | none => bare 400
      | some code =>
        match evaluate code with
        | .ok text => found text
        | .error e => failure e
    | "/run" =>
      match w.run form with
      | .ok (.figure f) => ⟨200, .figure f⟩
      | .ok .none => bare 500
      | .error e => failure e
    | path => bare (if pages.contains path then 405 else 404)

end Workbench

end PineEngine
