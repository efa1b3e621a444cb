import PineEngine.Chart.OrderBook

/-! # Charts

A chart shows candles and, over them or in panes of their own, indicators. Panes are numbered; pane 0 is the
main one and is always there. Series are kept from the earliest to the latest time: what is given the other
way round is turned. Data that cannot be shown, because it is too short or its pane is missing, is passed
over in silence.
-/

namespace PineEngine

open Chart

structure Chart.Settings where
  figSize : Value := .list [.int 12, .int 8]
  figDpi : Value := .int 100
  frontcolor : Value := .text "DimGray"
  backcolor : Value := .text "#FAFAFA"
  title : Value := .text "chart"
  titleSize : Value := .int 16
  labelSize : Value := .int 8
  bar : Value := .dict [("up_color", .text "#53B987"), ("down_color", .text "#EB4D5C")]
  volumeBar : Value := .bool true
  xaxis : Value := .dict [("grid", .bool true)]
  legend : Value := .text "Top"

namespace Chart.Settings

def set (s : Settings) (key : String) (v : Value) : Settings :=
  match key with
  | "fig_size" => { s with figSize := v }
  | "fig_dpi" => { s with figDpi := v }
  | "frontcolor" => { s with frontcolor := v }
  | "backcolor" => { s with backcolor := v }
  | "title" => { s with title := v }
  | "title_size" => { s with titleSize := v }
  | "label_size" => { s with labelSize := v }
  | "bar" => { s with bar := v }
  | "volume_bar" => { s with volumeBar := v }
  | "xaxis" => { s with xaxis := v }
  | "legend" => { s with legend := v }
  | _ => s

def entry (table : Value) (key : String) : Except Fault Value :=
  match table with
  | .dict fields => Fields.get fields key
  | _ => .error .operands

def upColor (s : Settings) : Except Fault Value :=
  entry s.bar "up_color"

def downColor (s : Settings) : Except Fault Value :=
  entry s.bar "down_color"

def timeGrid (s : Settings) : Except Fault Value :=
  entry s.xaxis "grid"

end Chart.Settings

structure Chart.Pane where
  grid : Value := .bool true
  label : Value := .text "y"

inductive Chart.Indicator where
  /-- A line; without times it is level, without values upright. -/
  | line (pane : Value) (times plot : Column) (color width name : Value)
  | band (pane : Value) (times plot1 plot2 : Column) (upColor downColor alpha edgeWidth edgeColor name : Value)
  | bar (pane : Value) (times plot : Column) (color name : Value)
  | mark (pane : Value) (times plot : Column) (color size mark name text : Value)
  | candles (pane : Value) (frame : Frame) (volumeBar : Value)
  /-- The best prices of an order book, with tables of the book. -/
  | board (pane : Value) (times bestBid bestAsk : Column) (bidTables askTables : List String)
    (width bidColor askColor bidTableColor askTableColor : Value)

namespace Chart.Indicator

def pane : Indicator → Value
  | line p .. | band p .. | bar p .. | mark p .. | candles p .. | board p .. => p

def listOf (c : Column) : Value := .list c.toList

def tableOf (f : Frame) : Value := .dict (f.map fun (k, vs) => (k, .list vs))

def toFields : Indicator → Fields
  | line p t y color width name => [("ax", p), ("type", .text "line"), ("unixtime", listOf t),
      ("plot", listOf y), ("color", color), ("width", width), ("name", name)]
  | band p t y z up down alpha width color name => [("ax", p), ("type", .text "band"),
      ("unixtime", listOf t), ("plot1", listOf y), ("plot2", listOf z), ("up_color", up),
      ("down_color", down), ("alpha", alpha), ("edge_width", width), ("edge_color", color), ("name", name)]
  | bar p t y color name => [("ax", p), ("type", .text "bar"), ("unixtime", listOf t), ("plot", listOf y),
      ("color", color), ("name", name)]
  | mark p t y color size shape name text => [("ax", p), ("type", .text "mark"), ("unixtime", listOf t),
      ("plot", listOf y), ("color", color), ("size", size), ("mark", shape), ("name", name), ("text", text)]
  | candles p f v => [("ax", p), ("type", .text "ohlcv"), ("ohlcv", tableOf f), ("vol_bar", v)]
  | board p t b a bs as width bc ac bh ah => [("ax", p), ("type", .text "board"), ("unixtime", listOf t),
      ("best_bid", listOf b), ("best_ask", listOf a), ("hover_bids", .list (bs.map Value.text)),
      ("hover_asks", .list (as.map Value.text)), ("line_width", width), ("bid_line_color", bc),
      ("ask_line_color", ac), ("bid_hover_color", bh), ("ask_hover_color", ah)]

end Chart.Indicator

structure Chart where
  settings : Chart.Settings := {}
  frame : Frame := []
  /-- The first time, the last time and the time between two candles. -/
  start : Value := .int 0
  stop : Value := .int 0
  tick : Value := .int 0
  panes : List (Value × Chart.Pane) := [(.int 0, {})]
  indicators : List Chart.Indicator := []

abbrev ChartM := ExceptT Fault (StateM Chart)

instance : MonadLift (Except Fault) ChartM := ⟨MonadExcept.ofExcept⟩

namespace Chart

def columnNames : List String :=
  ["unixtime", "open", "high", "low", "close", "volume"]

def emptyFrame : Frame :=
  columnNames.map fun n => (n, [])

def blank : Chart :=
  { frame := emptyFrame }

def clear (c : Chart) : Chart :=
  { c with frame := emptyFrame, start := .int 0, stop := .int 0, tick := .int 0, indicators := [] }

def configure (settings : Fields) (c : Chart) : Chart :=
  { c with settings := settings.foldl (fun s (k, v) => s.set k v) c.settings }

def rowCount (f : Frame) : Nat :=
  match f with
  | (_, vs) :: _ => vs.length
  | [] => 0

def turn (f : Frame) : Frame :=
  f.map fun (k, vs) => (k, vs.reverse)

def bindArguments (parameters : List (String × Option Value)) (args : List Value) (named : Fields) :
    Except Fault (List Value) :=
  if parameters.length < args.length then .error .operands
  else if named.any fun (k, _) =>
      !(parameters.any (·.1 == k)) || ((parameters.take args.length).any (·.1 == k)) then .error .operands
  else (parameters.zipIdx).mapM fun ((name, default), i) =>
    match args[i]?, named.lookup name, default with
    | some v, _, _ => .ok v
    | none, some v, _ => .ok v
    | none, none, some v => .ok v
    | none, none, none => .error .operands

def findPane? (panes : List (Value × Pane)) (n : Value) : Option Pane :=
  (panes.find? fun (k, _) => k.same n).map (·.2)

def hasPane (n : Value) : ChartM Bool := do
  if !n.isKey then throw .operands
  pure (findPane? (← get).panes n).isSome

def addPane (n label grid : Value) : ChartM Unit := do
  let present ← hasPane n
  modify fun c => { c with panes :=
    if present then c.panes.map fun (k, p) => if k.same n then (k, ⟨grid, label⟩) else (k, p)
    else c.panes ++ [(n, ⟨grid, label⟩)] }

def takeFrame (f : Frame) (times : List Value) : ChartM Unit := do
  modify fun c => { c with frame := f }
  let first ← Value.itemOf times 0
  let second ← Value.itemOf times 1
  let tick ← Value.arith .sub second first
  let last ← Value.itemOf times (-1)
  modify fun c => { c with tick := tick, start := first, stop := last }

def setFrame (f : Frame) : ChartM Unit := do
  match f.lookup "unixtime" with
  | none => pure ()
  | some times =>
    if times.length < 2 then return
    if ← Value.holds .lt (← Value.itemOf times 0) (← Value.itemOf times (-1)) then takeFrame f times
    else takeFrame (turn f) times.reverse

/-- A frame out of rows of six values; a row that is too short is filled up with missing values. -/
def frameOfRows (rows : List Value) : Except Fault Frame := do
  let rows ← rows.mapM Value.items
  if rows.any fun r => 6 < r.length then .error .value
  Frame.ofColumns (columnNames.zipIdx.map fun (n, i) => (n, rows.map fun r => r[i]?.getD .absent))

def setRows (rows : Value) : ChartM Unit := do
  if (← lengthOf rows) < 2 then return
  if (← lengthOf (← rows.item 0)) < 6 then return
  let rows ← rows.items
  let first ← (← Value.itemOf rows 0).item 0
  let last ← (← Value.itemOf rows (-1)).item 0
  let rows := if ← Value.holds .lt first last then rows else rows.reverse
  let f ← frameOfRows rows
  takeFrame f ((f.lookup "unixtime").getD [])

def addIndicator (i : Indicator) : ChartM Unit :=
  modify fun c => { c with indicators := c.indicators ++ [i] }

def inOrder (times : Value) (columns : List Value) : Except Fault (Column × List Column) := do
  let rising ← Value.holds .lt (← times.item 0) (← times.item (-1))
  let column (v : Value) : Except Fault Column := do
    let items ← v.items
    Column.ofValues (if rising then items else items.reverse)
  let t ← column times
  pure (t, ← columns.mapM column)

def tooShort : List Value → Except Fault Bool
  | [] => .ok false
  | v :: rest => do
    if (← lengthOf v) < 2 then pure true else tooShort rest

def addLine (times plot pane color width name : Value) : ChartM Unit := do
  if !(← hasPane pane) then return
  if ← tooShort [times, plot] then return
  match ← inOrder times [plot] with
  | (t, [y]) => addIndicator (.line pane t y color width name)
  | _ => pure ()

def addLevel (value pane color width name : Value) : ChartM Unit := do
  if !(← hasPane pane) then return
  addIndicator (.line pane (← Column.ofValues []) (← Column.ofValues [value, value]) color width name)

def addUpright (time pane color width name : Value) : ChartM Unit := do
  if !(← hasPane pane) then return
  addIndicator (.line pane (← Column.ofValues [time, time]) (← Column.ofValues []) color width name)

def addBand (times plot1 plot2 pane upColor downColor alpha edgeWidth edgeColor name : Value) :
    ChartM Unit := do
  if !(← hasPane pane) then return
  if ← tooShort [times, plot1, plot2] then return
  match ← inOrder times [plot1, plot2] with
  | (t, [y, z]) => addIndicator (.band pane t y z upColor downColor alpha edgeWidth edgeColor name)
  | _ => pure ()

def addBar (times plot pane color name : Value) : ChartM Unit := do
  if !(← hasPane pane) then return
  if ← tooShort [times, plot] then return
  match ← inOrder times [plot] with
  | (t, [y]) => addIndicator (.bar pane t y color name)
  | _ => pure ()

def addMark (times plot pane color size mark name text : Value) : ChartM Unit := do
  if !(← hasPane pane) then return
  match ← inOrder times [plot] with
  | (t, [y]) => addIndicator (.mark pane t y color size mark name text)
  | _ => pure ()

def addCandles (f : Frame) (pane volumeBar : Value) : ChartM Unit := do
  if !(← hasPane pane) then return
  if rowCount f != rowCount (← get).frame then return
  match f.lookup "unixtime" with
  | none => throw .member
  | some times =>
    let f := if ← Value.holds .gt (← Value.itemOf times 0) (← Value.itemOf times (-1)) then turn f else f
    addIndicator (.candles pane f volumeBar)

/-- The quotes of order books. A side of no known form is looked for where the one before it was. -/
def quotes (wanted : Value) (e : OrderBook.Emphasis) (isFirst : Bool) :
    List (Value × Value) → Except Fault (List OrderBook.Quote)
  | [] => .ok []
  | (bids, asks) :: rest => do
    let missing : Fault := if isFirst then .unset else .key
    let some bids ← OrderBook.read? bids | .error missing
    let some asks ← OrderBook.read? asks | .error missing
    let q ← OrderBook.quote wanted e bids asks
    pure (q :: (← quotes wanted e false rest))

structure BoardStyle where
  width : Value
  bidColor : Value
  askColor : Value
  bidTableColor : Value
  askTableColor : Value

def addBoard (times bids asks pane : Value) (wanted : Value) (e : OrderBook.Emphasis) (style : BoardStyle) :
    ChartM Unit := do
  if !(← hasPane pane) then return
  let n ← lengthOf times
  if n < 2 then return
  if n != (← lengthOf bids) then return
  if n != (← lengthOf asks) then return
  let falling ← Value.holds .gt (← times.item 0) (← times.item (-1))
  let inTime (v : Value) : Except Fault (List Value) := do
    let items ← v.items
    pure (if falling then items.reverse else items)
  let qs ← quotes wanted e true ((← inTime bids).zip (← inTime asks))
  addIndicator (.board pane (← Column.ofValues (← inTime times)) (← Column.ofValues (qs.map (·.bid)))
    (← Column.ofValues (qs.map (·.ask))) (qs.map (·.bidTable)) (qs.map (·.askTable)) style.width
    style.bidColor style.askColor style.bidTableColor style.askTableColor)

end Chart

end PineEngine
