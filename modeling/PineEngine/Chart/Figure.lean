import PineEngine.Chart.Panes

/-! # Figures

A figure is an interactive picture: traces that show data, and a layout with axes. Every pane has a row of
its own, and so have the volumes of candles; rows share the time axis of the last one. A pane is surrounded
by a frame.

Properties without a value are left out. Colours, sizes and truth values are checked when they are put in.
-/

namespace PineEngine.Chart

open Time

structure Figure where
  traces : List Fields := []
  layout : Fields := []

namespace Figure

def isPresent : Value → Bool
  | .absent | .dict [] => false
  | _ => true

def present (fields : Fields) : Fields :=
  fields.filter fun (_, v) => isPresent v

def table (fields : Fields) : Value :=
  .dict (present fields)

def color (v : Value) : Except Fault Value :=
  match v with
  | .absent => .ok v
  | _ => if Color.isFigureColor v then .ok v else .error .value

def isNumeric (v : Value) : Bool :=
  match v.plain with
  | .int _ | .float _ | .bool _ => true
  | _ => false

def markColor (v : Value) : Except Fault Value :=
  if isNumeric v then .ok v else color v

def number (least : Int) (v : Value) : Except Fault Value :=
  match v with
  | .absent => .ok v
  | _ =>
    if isNumeric v then do
      if ← Value.holds .lt v (.int least) then .error .value else pure v
    else .error .value

def truth (v : Value) : Except Fault Value :=
  match v.plain with
  | .absent => .ok v
  | .bool b => .ok (.bool b)
  | _ => .error .value

def text (v : Value) : Except Fault Value :=
  match v.plain with
  | .absent => .ok .absent
  | .text s => .ok (.text s)
  | .int _ | .float _ | .bool _ => .ok (.text v.printed)
  | _ => .error .value

def texts (v : Value) : Except Fault Value :=
  match v with
  | .list items => .ok (.list (items.map fun i => match i.plain with
    | .absent => .absent
    | w => .text w.printed))
  | v => text v

def title (v : Value) : Except Fault Value := do
  pure (table [("text", ← text v)])

def domain (d : Float × Float) : Except Fault Value :=
  if decide (0.0 ≤ d.1) && decide (d.1 ≤ 1.0) && decide (0.0 ≤ d.2) && decide (d.2 ≤ 1.0) then
    .ok (.list [.float d.1, .float d.2])
  else .error .value

def numbered (word : String) (k : Nat) : String :=
  if k == 1 then word else word ++ toString k

def timesOf (ts : List Instant) : Value :=
  .list (ts.map fun t => .text t.isoText)

def member (f : Frame) (name : String) : Except Fault (List Value) :=
  match f.lookup name with
  | some vs => .ok vs
  | none => .error .member

def font (size : Value) (more : Fields) : Value :=
  table ([("family", .text "arial, sans-selif"), ("size", size)] ++ more)

def evenDomain (rows k : Nat) : Float × Float :=
  let share := 1.0 / rows.toFloat
  let bottom := (List.replicate (rows - k) share).foldl (· + ·) 0.0
  let top := bottom + share
  (bottom, if top < 1.0 then top else 1.0)

def rowAxes (rows k : Nat) : Fields :=
  let (bottom, top) := evenDomain rows k
  let shared : Fields :=
    if k == rows then []
    else [("matches", .text (numbered "x" rows)), ("showticklabels", .bool false)]
  [(numbered "xaxis" k, .dict ([("anchor", .text (numbered "y" k)),
      ("domain", .list [.float 0.0, .float 1.0])] ++ shared)),
    (numbered "yaxis" k, .dict [("anchor", .text (numbered "x" k)), ("domain", .list [.float bottom, .float top])])]

def rowLayout (rows : Nat) : Fields :=
  (List.range rows).flatMap fun k => rowAxes rows (k + 1)

def updateAxis (layout : Fields) (axis : String) (properties : Fields) : Except Fault Fields :=
  match layout.lookup axis with
  | some (.dict old) => .ok (layout.set axis (.dict (properties.foldl (fun acc (k, v) =>
    if isPresent v then Fields.set acc k v else acc) old)))
  | _ => .error .figureKey

def rowsOf (layout : Fields) : Nat :=
  (layout.filter fun (k, _) => k.startsWith "yaxis").length

def spikes (front : Value) : Fields :=
  [("showspikes", .bool true), ("spikecolor", front), ("spikethickness", .float 1.5),
    ("spikedash", .text "solid"), ("spikemode", .text "toaxis+across"), ("spikesnap", .text "data")]

def paneAxis (s : Settings) (p : Pane) (labelFont : Value) (d : Float × Float) : Except Fault Fields := do
  pure ([("title", ← title p.label), ("domain", ← domain d), ("showticklabels", .bool true),
    ("showgrid", ← truth p.grid), ("gridcolor", s.frontcolor), ("tickfont", labelFont),
    ("tickcolor", s.frontcolor), ("anchor", .text "x")] ++ spikes s.frontcolor ++
    [("autorange", .bool true), ("fixedrange", .bool false)])

def volumeAxis (s : Settings) (labelFont : Value) (d : Float × Float) (row : Nat) (volumes : List Value) :
    Except Fault Fields := do
  let top ← Value.arith .mul (← extreme .gt volumes) (.int 4)
  pure ([("title", ← title (.text "Volume")), ("domain", ← domain d), ("showticklabels", .bool true),
    ("showgrid", .bool false), ("tickfont", labelFont), ("tickcolor", s.frontcolor),
    ("range", .list [.int 0, top]), ("overlaying", .text (numbered "y" row)), ("side", .text "right"),
    ("anchor", .text "x")] ++ spikes s.frontcolor)

def legend (s : Settings) : Value :=
  let place (anchor : String) (y : Float) : Value :=
    .dict [("orientation", .text "h"), ("xanchor", .text "center"), ("yanchor", .text anchor),
      ("x", .float 0.5), ("y", .float y)]
  if s.legend.same (.text "Top") then place "bottom" 0.95
  else if s.legend.same (.text "Bottom") then place "top" (-0.1)
  else .absent

def isSet : Value → Bool
  | .absent => false
  | _ => true

def generalLayout (s : Settings) (labelSize : Value) : Except Fault Fields := do
  let heading ← match s.title with
    | .text t => pure (Value.text ("<b>" ++ t ++ "</b>"))
    | _ => .error .operands
  let width ← Value.arith .mul (← s.figSize.item 0) s.figDpi
  let height ← Value.arith .mul (← s.figSize.item 1) s.figDpi
  let margin : Value := .dict [("l", .int 50), ("r", .int 50), ("t", .int 30), ("b", .int 30)]
  pure (present [("title", ← title heading), ("width", ← number 10 width), ("height", ← number 10 height),
    ("margin", margin), ("font", font (← number 1 labelSize) [("color", ← color s.frontcolor)]),
    ("plot_bgcolor", ← color s.backcolor), ("showlegend", .bool (isSet s.legend)), ("legend", legend s)])

def frameShape (s : Settings) (f : Float × Float) : Value :=
  table [("type", .text "rect"), ("xref", .text "paper"), ("yref", .text "paper"), ("x0", .float 0.0),
    ("x1", .float 1.0), ("y0", .float f.1), ("y1", .float f.2),
    ("line", table [("color", s.frontcolor), ("width", .float 2.0)])]

def timeAxis (s : Settings) (style : LabelStyle) (labelFont : Value) : Except Fault Fields := do
  pure ([("tickformat", .text style.pattern), ("showgrid", ← truth (← s.timeGrid)), ("gridcolor", s.frontcolor),
    ("tickfont", labelFont), ("tickcolor", s.frontcolor)] ++ spikes s.frontcolor ++
    [("rangeslider", .dict [("visible", .bool true), ("thickness", .float 0.05)])])

def place (layout : Fields) (row : Nat) (kind : String) (properties : Fields) : Except Fault Fields :=
  if row ≤ rowsOf layout then
    .ok (present ([("type", .text kind)] ++ properties ++
      [("xaxis", .text (numbered "x" row)), ("yaxis", .text (numbered "y" row))]))
  else .error .figureRow

def candleTrace (s : Settings) (f : Frame) (times : Value) : Except Fault Fields := do
  let column (name : String) : Except Fault Value := do pure (.list (← member f name))
  let opening ← column "open"
  let high ← column "high"
  let low ← column "low"
  let closing ← column "close"
  let line (c : Value) : Except Fault Value := do
    pure (table [("line", table [("color", ← color c)])])
  pure [("open", opening), ("high", high), ("low", low), ("close", closing), ("x", times),
    ("name", .text "OHLC"), ("increasing", ← line (← s.upColor)), ("decreasing", ← line (← s.downColor))]

def volumeColors (s : Settings) (closes : List Value) : Except Fault (List Value) := do
  let up ← s.upColor
  let down ← s.downColor
  let rises ← (closes.zip (closes.drop 1)).mapM fun (a, b) => do
    Value.holds .gt (← Value.arith .sub b a) (.int 0)
  (if closes.isEmpty then [] else false :: rises).mapM fun r => color (if r then up else down)

def volumeTrace (s : Settings) (f : Frame) (times : Value) : Except Fault Fields := do
  let colors ← volumeColors s (← member f "close")
  pure [("x", times), ("y", .list (← member f "volume")), ("marker", table [("color", .list colors)]),
    ("name", .text "Volume")]

def numbers (c : Column) : Except Fault (List Value) :=
  c.toList.filterM fun v => do pure !(← v.isNaN)

def rangeOf (vs : List Value) : Except Fault Range :=
  match vs with
  | [] => .error .value
  | v :: rest => do
    let low ← rest.foldlM (fun best w => do pure (if ← Value.holds .lt w best then w else best)) v
    let high ← rest.foldlM (fun best w => do pure (if ← Value.holds .gt w best then w else best)) v
    pure ⟨low, high⟩

def joinRanges (a b : Range) : Except Fault Range := do
  pure ⟨if ← Value.holds .lt b.low a.low then b.low else a.low,
    if ← Value.holds .gt b.high a.high then b.high else a.high⟩

def cellExtreme (op : CompareOp) (c : Column) : Except Fault Value :=
  match c.cells, c.toList with
  | .texts _ _, _ => .error .operands
  | _, [] => .error .value
  | _, v :: rest => rest.foldlM (fun best w => do
    if ← best.isNaN then pure best
    else if ← w.isNaN then pure w
    else if ← Value.holds op w best then pure w else pure best) v

def columnRange (c : Column) : Except Fault Range := do
  pure ⟨← cellExtreme .lt c, ← cellExtreme .gt c⟩

def symbols : List (String × Int) :=
  [(".", 0), (",", 0), ("o", 0), ("*", 17), ("v", 6), ("^", 5), ("<", 7), (">", 8), ("1", 6), ("2", 5),
    ("3", 7), ("4", 8), ("8", 16), ("s", 1), ("p", 13), ("x", 4), ("h", 14), ("H", 14), ("+", 3), ("D", 2),
    ("d", 23)]

def symbolOf (mark : Value) : Except Fault Value :=
  match mark with
  | .text s => .ok (.int ((symbols.lookup s).getD 0))
  | v => if v.isKey then .ok (.int 0) else .error .operands

def suffixed (name : Value) (ending : String) : Except Fault Value :=
  match name.plain with
  | .text s => .ok (.text (s ++ ending))
  | _ => .error .operands

def tableLook (background : Value) : Except Fault Value := do
  pure (table [("bgcolor", ← color (← Color.toRgba background (.float 0.8))),
    ("font", .dict [("family", .text "Courier New"), ("size", .int 12)])])

def boardTrace (times : Value) (prices : Column) (width lineColor : Value) (tables : List String)
    (background : Value) : Except Fault Fields := do
  let look ← tableLook background
  pure [("x", times), ("y", .list prices.toList), ("mode", .text "lines"),
    ("line", table [("width", ← number 0 width)]), ("marker", table [("color", ← markColor lineColor)]),
    ("text", .list (tables.map Value.text)), ("hoverinfo", .text "text"), ("hoverlabel", look)]

def indicatorTimes : Indicator → Except Fault (List Instant)
  | .line _ t .. | .band _ t .. | .bar _ t .. | .mark _ t .. | .board _ t .. => instants t.toList
  | .candles _ f _ => do instants (← Frame.column f "unixtime")

/-- The traces of an indicator in the row of its pane, with the row, the kind and the properties of each,
    and the range of its values. -/
def indicatorTraces (s : Settings) (row : Nat) (i : Indicator) :
    Except Fault (Range × List (Nat × String × Except Fault Fields)) := do
  let ts ← indicatorTimes i
  let x := timesOf ts
  match i with
  | .line _ t y lineColor width name =>
    let range ← if y.length == 0 then pure Range.none else rangeOf (← numbers y)
    let (x, values) ←
      if t.length == 0 then
        match ts.head?, ts.getLast? with
        | some a, some b => do pure (timesOf [a, b], .list [← y.get 0, ← y.get 0])
        | _, _ => .error .index
      else if y.length == 0 then
        match ts.head? with
        | some a => pure (timesOf [a, a], .list [.int (-999999999), .int 999999999])
        | none => .error .index
      else pure (x, Value.list y.toList)
    pure (range, [(row, "scatter", do
      pure [("x", x), ("y", values), ("mode", .text "lines"), ("line", table [("width", ← number 0 width)]),
        ("marker", table [("color", ← markColor lineColor)]), ("name", ← text name)])])
  | .band _ _ y z up _ alpha width edge name =>
    let first ← numbers y
    let second ← numbers z
    let range ← joinRanges (← rangeOf first) (← rangeOf second)
    let line : Except Fault Value := do
      pure (table [("width", ← number 0 width), ("color", ← color edge)])
    pure (range, [
      (row, "scatter", do
        let name ← suffixed name "_1"
        pure [("x", x), ("y", .list y.toList), ("mode", .text "lines"), ("line", ← line), ("name", name)]),
      (row, "scatter", do
        let fill ← Color.toRgba up alpha
        let name ← suffixed name "_2"
        pure [("x", x), ("y", .list z.toList), ("fill", .text "tonexty"), ("fillcolor", ← color fill),
          ("mode", .text "lines"), ("line", ← line), ("name", name)])])
  | .bar _ _ y barColor name =>
    let range ← rangeOf (← numbers y)
    pure (range, [(row, "bar", do
      pure [("x", x), ("y", .list y.toList), ("marker", table [("color", ← markColor barColor)]),
        ("opacity", .float 1.0), ("name", ← text name)])])
  | .mark _ _ y dotColor size shape name label =>
    let range ← rangeOf (← numbers y)
    let symbol ← symbolOf shape
    pure (range, [(row, "scatter", do
      let size ← Value.arith .div size (.float 3.0)
      pure [("x", x), ("y", .list y.toList), ("mode", .text "markers"),
        ("marker", table [("color", ← markColor dotColor), ("size", ← number 0 size), ("symbol", symbol),
          ("line", .dict [("color", .text "white"), ("width", .int 1)])]),
        ("opacity", .float 1.0), ("name", ← text name), ("text", ← texts label)])])
  | .candles _ f volumes =>
    let range ← Range.ofCandles (← member f "low") (← member f "high")
    let volumeTraces : List (Nat × String × Except Fault Fields) :=
      if volumes.isTrue then [(row + 1, "bar", volumeTrace s f x)] else []
    pure (range, (row, "candlestick", candleTrace s f x) :: volumeTraces)
  | .board _ _ bid ask bids asks width bidColor askColor bidBack askBack =>
    let range ← joinRanges (← columnRange bid) (← columnRange ask)
    pure (range, [
      (row, "scatter", boardTrace x bid width bidColor bids bidBack),
      (row, "scatter", boardTrace x ask width askColor asks askBack)])

structure PaneRow where
  number : Value
  row : Nat
  range : Range

/-- The rows of the panes, and the layout with their axes; `row` is the next row. -/
def paneRows (c : Chart) (labelFont : Value) (main : Range) (candles volumes : List Value) :
    List (Value × Float × Float) → Nat → Fields → Except Fault (Fields × List PaneRow)
  | [], _, layout => .ok (layout, [])
  | (n, d) :: rest, row, layout => do
    let p := (findPane? c.panes n).getD {}
    if !(layout.any (·.1 == numbered "yaxis" row)) then throw .figureKey
    let layout ← updateAxis layout (numbered "yaxis" row) (← paneAxis c.settings p labelFont d)
    let shown :=
      if isMain n then c.settings.volumeBar.isTrue else among n candles && among n volumes
    let volumeFrame :=
      if isMain n then c.frame
      else (c.indicators.findSome? fun i => match i with
        | .candles q f _ => if q.same n then some f else none
        | _ => none).getD []
    let own : PaneRow := ⟨n, row, if isMain n then main else Range.none⟩
    if shown then
      if !(layout.any (·.1 == numbered "yaxis" (row + 1))) then throw .figureKey
      let axis ← volumeAxis c.settings labelFont d row (← member volumeFrame "volume")
      let layout ← updateAxis layout (numbered "yaxis" (row + 1)) axis
      let (layout, rows) ← paneRows c labelFont main candles volumes rest (row + 2) layout
      pure (layout, own :: rows)
    else
      let (layout, rows) ← paneRows c labelFont main candles volumes rest (row + 1) layout
      pure (layout, own :: rows)

def findRow (rows : List PaneRow) (n : Value) : Except Fault PaneRow :=
  match rows.find? fun r => r.number.same n with
  | some r => .ok r
  | none => .error .key

def placeAll (layout : Fields) (traces : List (Nat × String × Except Fault Fields)) :
    Except Fault (List Fields) :=
  traces.mapM fun (row, kind, properties) => do place layout row kind (← properties)

def indicatorsIn (s : Settings) (layout : Fields) :
    List Indicator → List PaneRow → Except Fault (List Fields × List PaneRow)
  | [], rows => .ok ([], rows)
  | i :: rest, rows => do
    let r ← findRow rows i.pane
    let (range, traces) ← indicatorTraces s r.row i
    let placed ← placeAll layout traces
    let range ← r.range.cover range
    let rows := rows.map fun q => if q.number.same r.number then { q with range := range } else q
    let (more, rows) ← indicatorsIn s layout rest rows
    pure (placed ++ more, rows)

def mainRange (c : Chart) : Except Fault Range := do
  let r ← (← Range.ofCandles (← member c.frame "low") (← member c.frame "high")).widened
  if c.settings.volumeBar.isTrue then r.lowered else pure r

def ofChart (c : Chart) : Except Fault Figure := do
  let s := c.settings
  let numbers ← paneNumbers c
  let candles := candlePanes c
  let volumes := volumePanes c
  let unit := rowShare candles numbers
  let last := (numbers.getLast?).getD (.int 0)
  let times := timesOf (← instants (← Frame.column c.frame "unixtime"))
  let style ← labelStyle c.tick
  let range ← mainRange c
  let rows := if s.volumeBar.isTrue then numbers.length + 1 + volumes.length else numbers.length
  let labelSize ← Value.arith .add s.labelSize (.int 2)
  let general ← generalLayout s labelSize
  let labelFont := font labelSize []
  let shapes := (← frames candles unit last 1.0 numbers).map (frameShape s)
  let layout := general ++ [("shapes", .list shapes), ("hovermode", .text "x")] ++ rowLayout rows
  let layout ← updateAxis layout "xaxis" (← timeAxis s style labelFont)
  let (layout, paneRows) ← paneRows c labelFont range candles volumes
    (numbers.zip (domains candles unit last 1.0 numbers)) 1 layout
  let main ← findRow paneRows (.int 0)
  let volumeTraces := if s.volumeBar.isTrue then [(main.row + 1, "bar", volumeTrace s c.frame times)] else []
  let placed ← placeAll layout ((main.row, "candlestick", candleTrace s c.frame times) :: volumeTraces)
  let (more, paneRows) ← indicatorsIn s layout c.indicators paneRows
  let layout ← paneRows.foldlM (fun layout r =>
    updateAxis layout (numbered "yaxis" r.row) [("range", .list [r.range.low, r.range.high])]) layout
  pure ⟨placed ++ more, layout⟩

def config : Fields :=
  [("scrollZoom", .bool true), ("displayModeBar", .bool true)]

def toFields (f : Figure) : Fields :=
  [("data", .list (f.traces.map Value.dict)), ("layout", .dict f.layout), ("config", .dict config)]

end Figure

end PineEngine.Chart
