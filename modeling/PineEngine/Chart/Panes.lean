import PineEngine.Chart
import PineEngine.Time.Instant

/-! # Panes on paper

The panes of a chart stand below each other in the order of their numbers. The main pane takes three rows of
the paper, a pane with candles two and any other one. The last pane reaches down to the bottom.

The heights are shares of the paper: 1 is the top, 0 the bottom.
-/

namespace PineEngine.Chart

def insertSorted (v : Value) : List Value → Except Fault (List Value)
  | [] => .ok [v]
  | w :: rest => do
    if ← Value.holds .lt v w then pure (v :: w :: rest) else pure (w :: (← insertSorted v rest))

def sortValues (vs : List Value) : Except Fault (List Value) :=
  vs.foldlM (fun sorted v => insertSorted v sorted) []

def paneNumbers (c : Chart) : Except Fault (List Value) :=
  sortValues (c.panes.map (·.1))

def candlePanes (c : Chart) : List Value :=
  c.indicators.filterMap fun i => match i with
    | .candles p _ _ => some p
    | _ => none

def volumePanes (c : Chart) : List Value :=
  c.indicators.filterMap fun i => match i with
    | .candles p _ v => if v.isTrue then some p else none
    | _ => none

def among (v : Value) (vs : List Value) : Bool :=
  vs.any (·.same v)

def isMain (n : Value) : Bool :=
  n.same (.int 0)

def paneRows (candles : List Value) (n : Value) : Nat :=
  if isMain n then 3 else if among n candles then 2 else 1

def paperRows (candles numbers : List Value) : Nat :=
  numbers.foldl (fun rows n => rows + paneRows candles n) 0

def rowShare (candles numbers : List Value) : Float :=
  1.0 / (paperRows candles numbers).toFloat

def paneShare (candles : List Value) (unit : Float) (n : Value) : Float :=
  unit * (if isMain n then 3.0 else if among n candles then 2.0 else 1.0)

/-- Bottom and top of the frame around each pane; `top` is where the next one starts. -/
def frames (candles : List Value) (unit : Float) (last : Value) (top : Float) :
    List Value → Except Fault (List (Float × Float))
  | [] => .ok []
  | n :: rest => do
    let bottom := top - paneShare candles unit n
    if isMain n then
      pure ((bottom, 1.0) :: (← frames candles unit last bottom rest))
    else if ← Value.holds .lt n last then
      pure ((bottom, top) :: (← frames candles unit last bottom rest))
    else pure ((0.0, top) :: (← frames candles unit last top rest))

/-- Bottom and top of the axis of each pane; `top` is where the next one starts. -/
def domains (candles : List Value) (unit : Float) (last : Value) (top : Float) :
    List Value → List (Float × Float)
  | [] => []
  | n :: rest =>
    let bottom := top - paneShare candles unit n
    let own := if isMain n then (bottom, 1.0) else if n.same last then (0.0, top) else (bottom, top)
    own :: domains candles unit last bottom rest

def extreme (op : CompareOp) (vs : List Value) : Except Fault Value :=
  vs.foldlM (fun best v => do
    if ← v.isNaN then pure best
    else if ← best.isNaN then pure v
    else if ← Value.holds op v best then pure v else pure best) (.float notANumber)

structure Range where
  low : Value
  high : Value

namespace Range

def none : Range :=
  ⟨.int 999999999, .int (-999999999)⟩

def margin (r : Range) : Except Fault Value := do
  Value.arith .mul (← Value.arith .sub r.high r.low) (.float 0.05)

def widened (r : Range) : Except Fault Range := do
  let m ← r.margin
  pure ⟨← Value.arith .sub r.low m, ← Value.arith .add r.high m⟩

def lowered (r : Range) : Except Fault Range := do
  let height ← Value.arith .sub r.high r.low
  pure ⟨← Value.arith .sub r.low (← Value.arith .div height (.int 4)), r.high⟩

def ofCandles (low high : List Value) : Except Fault Range := do
  pure ⟨← extreme .lt low, ← extreme .gt high⟩

def cover (r other : Range) : Except Fault Range := do
  let w ← other.widened
  let low := if ← Value.holds .gt r.low w.low then w.low else r.low
  let high := if ← Value.holds .lt r.high w.high then w.high else r.high
  pure ⟨low, high⟩

end Range

abbrev PaneRanges := List (Value × Range)

def PaneRanges.set (rs : PaneRanges) (n : Value) (r : Range) : PaneRanges :=
  match rs with
  | [] => [(n, r)]
  | (m, s) :: rest => if m.same n then (m, r) :: rest else (m, s) :: PaneRanges.set rest n r

def PaneRanges.get (rs : PaneRanges) (n : Value) : Except Fault Range :=
  match rs.find? fun (m, _) => m.same n with
  | some (_, r) => .ok r
  | none => .error .key

def labelStyle (tick : Value) : Except Fault Time.LabelStyle := do
  if ← Value.holds .lt tick (.int 60) then pure .seconds
  else if ← Value.holds .lt tick (.int 86400) then pure .minutes
  else pure .date

def hoursAhead : Int := 9

def instants (times : List Value) : Except Fault (List Time.Instant) :=
  times.mapM fun t => do pure ((← Time.Instant.ofSeconds t).later hoursAhead)

end PineEngine.Chart
