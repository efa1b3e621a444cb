import PineEngine.Chart.Canvas
import PineEngine.Machine.Run

/-! # Charts of a run

The chart of what a script drew: the candles of its market in the main pane, the drawings over them or in a
pane below, and marks for orders always over the candles. Entries that are not numbers are left out.
-/

namespace PineEngine.Chart

def drawnEntries (s : Store) : Value → Except Fault (List Value)
  | .series r => .ok (s.column r).toList
  | v => v.elements

def numbers (times entries labels : List Value) : Except Fault (List (Value × Value × Value)) :=
  ((times.zip (entries.zip labels)).filterMapM fun (t, v, l) => do
    pure (if ← v.isNaN then none else some (t, v, l)))

def foremost (op : CompareOp) : List Value → Except Fault Value
  | [] => .error .value
  | v :: rest => rest.foldlM (fun best w => do
    pure (if ← Value.holds op w best then w else best)) v

def floorOf (entries : List Value) : Except Fault Value := do
  let low ← foremost .lt entries
  let high ← foremost .gt entries
  Value.arith .sub low (← Value.arith .mul (← Value.arith .sub high low) (.float 0.5))

def addDrawing (s : Store) (times : List Value) (pane : Value) (plot : Fields) : ChartM Unit := do
  let title ← Fields.get plot "title"
  let series ← Fields.get plot "series"
  let setting (key : String) (default : Value) : Value := (plot.lookup key).getD default
  let color := setting "color" (.text "blue")
  let width := setting "width" (.int 1)
  let entries (labels : List Value) : ChartM (Value × Value × Value) := do
    let found ← numbers times (← drawnEntries s series) labels
    pure (.list (found.map (·.1)), .list (found.map (·.2.1)), .list (found.map (·.2.2)))
  let unlabelled := List.replicate times.length Value.absent
  match setting "type" (.text "line") with
  | .text "line" => do
    let (t, y, _) ← entries unlabelled
    if t.isTrue then addLine t y pane color width title
  | .text "band" => do
    let (t, y, _) ← entries unlabelled
    let floor ← floorOf (← y.items)
    let count := (← drawnEntries s series).length
    if t.isTrue then
      addBand t y (.list (List.replicate count floor)) pane color (.text "red") (setting "alpha" (.float 0.5))
        width (.text "black") title
  | .text "bar" => do
    let (t, y, _) ← entries unlabelled
    if t.isTrue then addBar t y pane color title
  | .text "hline" => do
    let first ← Value.itemOf times 0
    let last ← Value.itemOf times (-1)
    addLine (.list [first, last]) (.list [series, series]) pane color width title
  | .text "marker" => do
    let (t, y, _) ← entries unlabelled
    if t.isTrue then
      addMark t y pane color (← Value.arith .mul width (.int 10)) (← Fields.get plot "mark") title (.text "")
  | .text "order" => do
    let (t, y, text) ← entries (← (← Fields.get plot "labels").items)
    if t.isTrue then
      addMark t y (.int 0) color (← Value.arith .mul width (.int 10)) (← Fields.get plot "mark") title text
  | _ => pure ()

def drawRun (m : Machine) (overlay : Bool) : ChartM Unit := do
  let frame ← m.market.frame
  addPane (.int 0) (.text "Price") (.bool true)
  setFrame frame
  let pane : Value := .int (if overlay then 0 else 1)
  if !overlay then addPane pane (.text "y") (.bool true)
  let times := (← Column.ofValues (← Frame.column frame "unixtime")).toList
  m.outputs.forM (addDrawing m.store times pane)

end PineEngine.Chart
