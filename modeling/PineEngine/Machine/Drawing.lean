import PineEngine.Machine.Function

/-! # Drawings

A machine that collects drawings keeps, at the last bar, a table for every line that a script draws. After
a run the orders of the broker are drawn as marks at the closing prices.
-/

namespace PineEngine.Machine

open Builtin

/-- The form that a style is drawn in, with the mark that it uses. -/
def styleForm (style : Int) : String × Option String :=
  match style with
  | 2 => ("bar", none)
  | 3 => ("marker", some "+")
  | 4 => ("band", none)
  | 5 => ("bar", none)
  | 6 => ("marker", some "o")
  | _ => ("line", none)

/-- What is drawn as a series: a single value stands at every bar. -/
def drawnSeries (v : Value) : MachineM SeriesRef := do
  match v with
  | .series r => pure r
  | v => do
    let n ← barCount
    onStore (SeriesRef.replicate n v)

def latest (v : Value) : MachineM Value :=
  match v with
  | .series r => onStore (r.get (-1))
  | v => pure v

/-- The parts of a colour: the colour itself and what follows after colons. -/
def colorParts (v : Value) : MachineM (String × List String) := do
  match ← latest v with
  | .text s | .cell (.text s) =>
    match s.splitOn ":" with
    | c :: rest => pure (c, rest)
    | [] => pure (s, [])
  | _ => throw .member

/-- Sets the colour of a drawing. A transparency that the colour names replaces the given one. -/
def paint (plot : Fields) (color transp : Value) : MachineM (Fields × Value) := do
  match color with
  | .absent => pure (plot, transp)
  | c => do
    let (c, rest) ← colorParts c
    let transp := match rest with
      | t :: _ => .text t
      | [] => transp
    pure (plot.set "color" (.text c), transp)

def fade (plot : Fields) (transp : Value) : MachineM Fields := do
  if transp.isTrue then
    pure (plot.set "alpha" (← Value.arith .mul transp (.float 0.01)))
  else pure plot

def moved (r : SeriesRef) (offset : Value) : MachineM SeriesRef := do
  match offset.whole? with
  | some n => onStore (r.shift n)
  | none => pure r

def setIfTrue (plot : Fields) (key : String) (v : Value) : Fields :=
  if v.isTrue then plot.set key v else plot

def drawLine (a : Arguments) : MachineM Value := do
  let r ← drawnSeries (a.value "series")
  let plot : Fields := [("title", a.value "title")]
  let plot := match (a.value "style").whole? with
    | some 0 | none => plot
    | some n =>
      let (form, mark) := styleForm n
      let plot := match mark with
        | some m => plot.set "mark" (.text m)
        | none => plot
      plot.set "type" (.text form)
  let (plot, transp) ← paint plot (a.value "color") (a.value "transp")
  let plot := setIfTrue plot "width" (a.value "linewidth")
  let plot ← fade plot transp
  let r ← moved r (a.value "offset")
  let plot := plot.set "series" (.series r)
  modify fun m => { m with outputs := m.outputs ++ [plot] }
  pure (.dict plot)

/-- Checks the marks of a script; they are not drawn. -/
def drawShape (a : Arguments) : MachineM Value := do
  let r ← drawnSeries (a.value "series")
  let (plot, transp) ← paint [] (a.value "color") (a.value "transp")
  let _ ← fade plot transp
  let _ ← moved r (a.value "offset")
  pure .absent

def drawLevel (a : Arguments) : MachineM Value := do
  let plot : Fields :=
    [("title", a.value "title"), ("series", a.value "price"), ("type", .text "hline")]
  let plot := setIfTrue plot "color" (a.value "color")
  let plot := setIfTrue plot "width" (a.value "linewidth")
  modify fun m => { m with outputs := m.outputs ++ [plot] }
  pure (.dict plot)

def seriesOf (v : Value) : Except Fault Value :=
  match v with
  | .dict plot => Fields.get plot "series"
  | _ => .error .operands

def drawFill (a : Arguments) : MachineM Value := do
  let plot : Fields :=
    [("title", a.value "title"), ("series", ← seriesOf (a.value "series1")),
     ("series2", ← seriesOf (a.value "series2")), ("type", .text "fill")]
  let (plot, transp) ← paint plot (a.value "color") (a.value "transp")
  let plot ← fade plot transp
  modify fun m => { m with fills := m.fills ++ [plot] }
  pure (.dict plot)

def draw (fn : Function) (args : List Value) (named : Fields) : MachineM Value := do
  let body : Option (Arguments → MachineM Value) := match fn with
    | .plot => some drawLine
    | .plotshape => some drawShape
    | .hline => some drawLevel
    | .fill => some drawFill
    | _ => none
  match body with
  | none => apply fn args named
  | some f =>
    if ← isLastStep then f (← bind fn.signature args named) else pure .absent

/-- The marks of one bar on the side of buying and on the side of selling: price and quantity. -/
def orderMarks (price : Value) (orders : List Order) : Except Fault ((Value × Value) × (Value × Value)) := do
  let none : Value × Value := (.float notANumber, .int 0)
  if orders.isEmpty then pure (none, none)
  else
    let qty ← Value.sum (orders.map (·.qty))
    if ← Value.holds .gt qty (.int 0) then pure ((price, qty), none)
    else if ← Value.holds .lt qty (.int 0) then pure (none, (price, ← qty.negate))
    else pure (none, none)

/-- The drawing of the marks on one side. The marks of a bar stand at the next one. -/
def marksDrawing (title mark color : String) (marks : List (Value × Value)) : Fields :=
  let marks := ((.float notANumber, .int 0) :: marks).dropLast
  [("title", .text title), ("series", .list (marks.map (·.1))), ("type", .text "order"),
   ("mark", .text mark), ("width", .int 4), ("color", .text color), ("labels", .list (marks.map (·.2)))]

def drawOrders (steps : List (List Order)) : MachineM Unit := do
  match ← source .close with
  | .series r => do
    let prices := (← onStore r.column).toList
    let marks ← (prices.zip steps).mapM fun (p, orders) => do
      pure ((← orderMarks p orders), orders)
    let buys := marks.map (·.1.1)
    let sells := marks.map (·.1.2)
    let isMark (m : Value × Value) : Bool := match m.2 with
      | .int 0 => false
      | _ => true
    if buys.any isMark then
      modify fun m => { m with outputs := m.outputs ++ [marksDrawing "Buy" "^" "green" buys] }
    if sells.any isMark then
      modify fun m => { m with outputs := m.outputs ++ [marksDrawing "Sell" "v" "red" sells] }
  | _ => pure ()

end PineEngine.Machine
