import PineEngine.Chart.Figure
import PineEngine.Column.Arith

/-! # Drawings

A drawing is made by calls to a drawing library: each call names an object of the library and what it is to
do. Axes are numbered in the order in which they are made. The library refuses colours and marks that it
does not know, columns that do not fit together and ranges that are not finite; a call that it refuses is
the last one.
-/

namespace PineEngine.Chart

open Time

inductive Term where
  | value (v : Value)
  | object (name : String)
  | rows (start stop : Nat)
  | steps (start stop step : Int)

structure Call where
  target : String
  args : List Term := []
  named : List (String × Term) := []

structure Canvas where
  calls : List Call := []
  axes : Nat := 0

abbrev CanvasM := ExceptT Fault (StateM Canvas)

instance : MonadLift (Except Fault) CanvasM := ⟨MonadExcept.ofExcept⟩

namespace Canvas

def call (target : String) (args : List Term) (named : List (String × Term)) : CanvasM Unit :=
  modify fun c => { c with calls := c.calls ++ [⟨target, args, named⟩] }

def accept (condition : Bool) : CanvasM Unit :=
  if condition then pure () else throw .value

def newAxes : CanvasM String := do
  let n := (← get).axes
  modify fun c => { c with axes := n + 1 }
  pure ("ax" ++ toString n)

def word (s : String) : Term := .value (.text s)

def flag (b : Bool) : Term := .value (.bool b)

def listTerm (vs : List Value) : Term := .value (.list vs)

def isFinite (v : Value) : Bool :=
  match v.toFloat with
  | .ok x => x.isFinite
  | .error _ => false

def tickLook (s : Settings) (axis : String) : List (String × Term) :=
  [("axis", word axis), ("labelsize", .value s.labelSize), ("labelcolor", .value s.frontcolor),
    ("color", .value s.frontcolor)]

def gridLook (s : Settings) : List (String × Term) :=
  [("which", word "major"), ("linestyle", word "dotted"), ("color", .value s.frontcolor)]

def dress (ax : String) (s : Settings) (p : Pane) : CanvasM Unit := do
  call (ax ++ ".patch.set_facecolor") [.value s.backcolor] []
  accept (Color.isCanvasColor s.backcolor)
  call (ax ++ ".set_axisbelow") [flag true] []
  call (ax ++ ".xaxis.grid") [.value (← s.timeGrid)] (gridLook s)
  call (ax ++ ".yaxis.grid") [.value p.grid] (gridLook s)
  call (ax ++ ".tick_params") [] (tickLook s "y")
  call (ax ++ ".set_ylabel") [.value p.label] [("fontsize", .value s.labelSize), ("color", .value s.frontcolor)]

def dressTimes (ax : String) (s : Settings) (isLast : Bool) : CanvasM Unit :=
  if isLast then call (ax ++ ".tick_params") [] (tickLook s "x")
  else call (ax ++ ".tick_params") [] [("labelbottom", flag false), ("bottom", flag false)]

def candleColors (s : Settings) : Except Fault (Value × Value) := do
  pure (← s.upColor, ← s.downColor)

def drawCandles (ax : String) (s : Settings) (f : Frame) : CanvasM Unit := do
  let opens ← Frame.column f "open"
  let highs ← Frame.column f "high"
  let lows ← Frame.column f "low"
  let closes ← Frame.column f "close"
  let (up, down) ← candleColors s
  call "mpf.candlestick2_ohlc" [.object ax] [("opens", listTerm opens), ("highs", listTerm highs),
    ("lows", listTerm lows), ("closes", listTerm closes), ("width", .value (.float 0.8)),
    ("colorup", .value up), ("colordown", .value down)]
  accept (Color.isCanvasColor up && Color.isCanvasColor down)

def drawVolumes (ax : String) (s : Settings) (f : Frame) : CanvasM Unit := do
  call (ax ++ ".twinx") [] []
  let second ← newAxes
  let top ← Value.arith .mul (← extreme .gt (← Frame.column f "volume")) (.int 4)
  call (second ++ ".set_ylim") [listTerm [.int 0, top]] []
  accept (isFinite top)
  call (second ++ ".tick_params") [] (tickLook s "y")
  call (second ++ ".set_ylabel") [word "Volume"]
    [("fontsize", .value s.labelSize), ("color", .value s.frontcolor)]
  let opens ← Frame.column f "open"
  let closes ← Frame.column f "close"
  let volumes ← Frame.column f "volume"
  let (up, down) ← candleColors s
  call "mpf.volume_overlay" [.object second] [("opens", listTerm opens), ("closes", listTerm closes),
    ("volumes", listTerm volumes), ("width", .value (.float 1.0)), ("colorup", .value up),
    ("colordown", .value down), ("alpha", .value (.float 0.5))]

structure PaneAxes where
  number : Value
  axes : String
  range : Range

def putAxes (all : List PaneAxes) (p : PaneAxes) : List PaneAxes :=
  match all with
  | [] => [p]
  | q :: rest => if q.number.same p.number then p :: rest else q :: putAxes rest p

def findAxes (all : List PaneAxes) (n : Value) : Except Fault PaneAxes :=
  match all.find? fun p => p.number.same n with
  | some p => .ok p
  | none => .error .key

def paneOf (c : Chart) (n : Value) : Pane :=
  (findPane? c.panes n).getD {}

def drawMain (c : Chart) (isLast : Bool) : CanvasM (String × Range) := do
  let s := c.settings
  call "plt.subplot" [.rows 0 3] []
  let ax ← newAxes
  call (ax ++ ".set_title") [.value s.title] [("loc", word "center"), ("fontsize", .value s.titleSize),
    ("color", .value s.frontcolor),
    ("fontdict", .value (.dict [("verticalalignment", .text "bottom"), ("fontweight", .int 600)]))]
  accept (Color.isCanvasColor s.frontcolor)
  dress ax s (paneOf c (.int 0))
  call (ax ++ ".set_xlim") [.value (.int (-1)), .value (.int (rowCount c.frame))] []
  dressTimes ax s isLast
  let low ← extreme .lt (← Frame.column c.frame "low")
  let high ← extreme .gt (← Frame.column c.frame "high")
  let range ← Range.widened ⟨low, high⟩
  let range ← if s.volumeBar.isTrue then range.lowered else pure range
  drawCandles ax s c.frame
  if s.volumeBar.isTrue then drawVolumes ax s c.frame
  pure (ax, range)

/-- Makes the axes of the other panes; `row` is the next row of the grid. -/
def drawPanes (c : Chart) (main : String) (candles : List Value) (last : Value) :
    List Value → Nat → List PaneAxes → CanvasM (List PaneAxes)
  | [], _, all => pure all
  | n :: rest, row, all => do
    if isMain n then drawPanes c main candles last rest row all
    else
      let height := if among n candles then 2 else 1
      call "plt.subplot" [.rows row (row + height)] [("sharex", .object main)]
      let ax ← newAxes
      dress ax c.settings (paneOf c n)
      dressTimes ax c.settings (last.same n)
      drawPanes c main candles last rest (row + height) (putAxes all ⟨n, ax, Range.none⟩)

/-- Every so many items of a list from a position on; a negative position counts from the end, and a
    negative step goes back. -/
def everyNth {α : Type} (xs : List α) (start step : Int) : List α :=
  let n : Int := xs.length
  let start := if start < 0 then start + n else start
  if 0 < step then
    let start := max 0 start
    (List.range xs.length).filterMap fun (i : Nat) =>
      if start ≤ i && ((i : Int) - start) % step == 0 then xs[i]? else none
  else if step < 0 then
    let start := min (n - 1) start
    (List.range xs.length).reverse.filterMap fun (i : Nat) =>
      if (i : Int) ≤ start && (start - i) % (-step) == 0 then xs[i]? else none
  else []

def stepCount (start stop step : Int) : Nat :=
  if 0 < step then ((stop - start + step - 1) / step).toNat
  else if step < 0 then ((start - stop - step - 1) / (-step)).toNat
  else 0

def labelPart (tick : Value) (m : Moment) : Except Fault Int := do
  if ← Value.holds .lt tick (.int 60) then pure m.second
  else if ← Value.holds .lt tick (.int 3600) then pure m.minute
  else if ← Value.holds .lt tick (.int 86400) then pure m.hour
  else pure m.day

def barSpan (c : Chart) : Except Fault Value := do
  Value.arith .div (← Value.arith .sub c.stop c.start) c.tick

/-- Draws the time labels. There are about ten of them, so that a chart of less than ten candles has none
    that could be drawn. -/
def drawTimes (c : Chart) (span : Value) (dates : List Instant) : CanvasM Unit := do
  let unit ← (← Value.arith .div span (.int 10)).toInt
  let some first := dates.head? | throw .key
  let part ← labelPart c.tick first.moment
  if unit == 0 then throw .zeroDivision
  let start := unit - Int.fmod part unit
  let style ← labelStyle c.tick
  let labels := everyNth (dates.map fun d => Value.text (style.label d)) start unit
  call "plt.xticks" [.steps start dates.length unit, listTerm labels] []
  accept (labels.isEmpty || labels.length == stepCount start dates.length unit)

def positions (c : Chart) (times : Column) : Except Fault Column := do
  let apart ← Column.arith .sub (.column times) (.single c.start)
  Column.arith .div (.column apart) (.single c.tick)

def columnTerm (c : Column) : Term := listTerm c.toList

def knownMarks : List String :=
  [".", ",", "o", "v", "^", "<", ">", "1", "2", "3", "4", "8", "s", "p", "*", "h", "H", "+", "x", "D", "d",
    "|", "_", "P", "X", "None", "none", " ", ""]

def isMark (v : Value) : Bool :=
  match v with
  | .absent => true
  | .int n => 0 ≤ n && n ≤ 11
  | .text s => knownMarks.contains s || (1 < s.length && s.startsWith "$" && s.endsWith "$")
  | _ => false

def drawLine (ax : String) (x y : Column) (color width : Value) : CanvasM Unit := do
  call (ax ++ ".plot") [columnTerm x, columnTerm y] [("color", .value color), ("linewidth", .value width)]
  accept (x.length == y.length && Color.isCanvasColor color)

def isShare (v : Value) : Bool :=
  match v with
  | .absent => true
  | v =>
    match Value.holds .le (.int 0) v, Value.holds .le v (.int 1) with
    | .ok a, .ok b => a && b
    | _, _ => false

def drawArea (ax : String) (x y z : Column) (condition : Option Column) (color alpha : Value) :
    CanvasM Unit := do
  let chosen := match condition with
    | some w => [("where", columnTerm w)]
    | none => []
  call (ax ++ ".fill_between") [columnTerm x, columnTerm y, columnTerm z]
    (chosen ++ [("facecolor", .value color), ("alpha", .value alpha), ("interpolate", flag true)])
  accept (x.length == y.length && x.length == z.length && Color.isCanvasColor color && isShare alpha)

def drawIndicator (c : Chart) (span : Value) (ax : String) (i : Indicator) : CanvasM Range := do
  match i with
  | .line _ t y color width _ =>
    let x ← positions c t
    let range ← if y.length == 0 then pure Range.none else Figure.columnRange y
    if t.length == 0 then
      call (ax ++ ".hlines") [] [("y", .value (← y.get 0)), ("xmin", .value (.int 0)), ("xmax", .value span),
        ("color", .value color), ("linewidth", .value width)]
      accept (Color.isCanvasColor color)
    else if y.length == 0 then
      call (ax ++ ".vlines") [] [("x", .value (← x.get 0)), ("ymin", .value (.int (-999999999))),
        ("ymax", .value (.int 999999999)), ("color", .value color), ("linewidth", .value width)]
      accept (Color.isCanvasColor color)
    else drawLine ax x y color width
    pure range
  | .band _ t y z up down alpha width edge _ =>
    let x ← positions c t
    let range ← Figure.joinRanges (← Figure.columnRange y) (← Figure.columnRange z)
    if up.same down then drawArea ax x y z none up alpha
    else
      drawArea ax x y z (some (← Column.compare .ge (.column y) (.column z))) up alpha
      drawArea ax x y z (some (← Column.compare .le (.column y) (.column z))) down alpha
    if ← Value.holds .gt width (.float 0.0) then
      call (ax ++ ".plot") [columnTerm x, columnTerm y, columnTerm x, columnTerm z]
        [("color", .value edge), ("linewidth", .value width)]
      accept (Color.isCanvasColor edge)
    pure range
  | .bar _ t y color _ =>
    let x ← positions c t
    let range ← Figure.columnRange y
    call (ax ++ ".bar") [columnTerm x, columnTerm y] [("color", .value color)]
    accept (x.length == y.length && Color.isCanvasColor color)
    pure range
  | .mark _ t y color size shape _ _ =>
    let x ← positions c t
    let range ← Figure.columnRange y
    call (ax ++ ".scatter") [columnTerm x, columnTerm y]
      [("marker", .value shape), ("s", .value size), ("c", .value color)]
    accept (x.length == y.length && Color.isCanvasColor color && isMark shape)
    pure range
  | .candles _ f volumes =>
    let range ← Range.ofCandles (← Frame.column f "low") (← Frame.column f "high")
    let range ← if volumes.isTrue then range.lowered else pure range
    drawCandles ax c.settings f
    if volumes.isTrue then drawVolumes ax c.settings f
    pure range
  | .board _ t bid ask _ _ width bidColor askColor _ _ =>
    let x ← positions c t
    let range ← Figure.joinRanges (← Figure.columnRange bid) (← Figure.columnRange ask)
    if ← Value.holds .gt width (.float 0.0) then
      drawLine ax x bid bidColor width
      drawLine ax x ask askColor width
    pure range

def drawIndicators (c : Chart) (span : Value) : List Indicator → List PaneAxes → CanvasM (List PaneAxes)
  | [], all => pure all
  | i :: rest, all => do
    let p ← findAxes all i.pane
    let range ← drawIndicator c span p.axes i
    let range ← p.range.cover range
    drawIndicators c span rest (putAxes all { p with range := range })

def setRanges (all : List PaneAxes) : CanvasM Unit :=
  all.forM fun p => do
    call (p.axes ++ ".set_ylim") [.value p.range.low, .value p.range.high] []
    accept (isFinite p.range.low && isFinite p.range.high)

def draw (c : Chart) (dates : List Instant) (path : String) : CanvasM Unit := do
  let s := c.settings
  let numbers ← paneNumbers c
  let candles := candlePanes c
  let size : List Value := [← s.figSize.item 0, ← s.figSize.item 1]
  call "plt.figure" [] [("figsize", listTerm size), ("dpi", .value s.figDpi)]
  accept (size.all fun v => isFinite v && (Value.holds .le (.int 0) v).toOption == some true)
  call "fig.autofmt_xdate" [] []
  call "gridspec.GridSpec" [.value (.int (paperRows candles numbers)), .value (.int 1)] []
  call "plt.subplots_adjust" [] [("wspace", .value (.float 0.0)), ("hspace", .value (.float 0.0))]
  let last := (numbers.getLast?).getD (.int 0)
  let first := (numbers.head?).getD (.int 0)
  let (main, range) ← drawMain c (isMain last)
  let all ← drawPanes c main candles last numbers 3 [⟨first, main, range⟩]
  let span ← barSpan c
  drawTimes c span dates
  let all ← drawIndicators c span c.indicators all
  setRanges all
  call "plt.savefig" [word path] [("dpi", .value s.figDpi), ("bbox_inches", word "tight"),
    ("pad_inches", .value (.float 0.2)), ("transparent", flag false)]
  call "plt.close" [] []

end Canvas

inductive Picture where
  | none
  | figure (f : Figure)

/-- The ending of a file name, after its last point; a name that starts with points has none there. -/
def extension (path : String) : String :=
  let name := ((path.splitOn "/").getLast?).getD ""
  let body := name.toList.dropWhile (· == '.')
  let tail := body.reverse.takeWhile (· != '.')
  if tail.length == body.length then "" else String.ofList tail.reverse

def isReady (c : Chart) : Bool :=
  2 ≤ rowCount c.frame && !(c.start.same (.int 0)) && !(c.stop.same (.int 0)) && !(c.tick.same (.int 0)) &&
    (findPane? c.panes (.int 0)).isSome

/-- Makes a chart: a drawing for the ending `png`, a figure for `html`. The calls of the drawing are given
    also if it failed. -/
def create (path mode : Value) : ChartM (List Call × Except Fault Picture) := do
  let c ← get
  if !isReady c then return ([], .ok .none)
  match path, mode with
  | .text path, .text mode =>
    if mode == "png" && extension path == "png" then
      let dates : Except Fault (List Instant) := do instants (← Frame.column c.frame "unixtime")
      match dates with
      | .error e => return ([], .error e)
      | .ok dates =>
        let numbered := paneNumbers c
        if let .error e := numbered then return ([], .error e)
        let column : List Value := dates.map fun d => .text d.isoText
        modify fun c => { c with frame := (c.frame.filter (·.1 != "date")) ++ [("date", column)] }
        let (r, canvas) := ((Canvas.draw c dates path).run).run {}
        return (canvas.calls, r.map fun _ => .none)
    else if mode == "html" && extension path == "html" then
      return ([], (Figure.ofChart c).map Picture.figure)
    else return ([], .ok .none)
  | .text _, _ => return ([], .ok .none)
  | _, _ => return ([], .error .operands)

end PineEngine.Chart
