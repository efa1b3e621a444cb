import PineEngine.Chart.Color
import PineEngine.Decimal.Grouped
import PineEngine.Frame
import PineEngine.Text.Pad

/-! # Order books

One side of an order book is a list of levels, each a price with a size. It is given as a pair of lists,
prices and sizes, or as a list of pairs. A book of two items is always taken for the first form.

For a chart the levels are sorted, the best price first, and written out as lines of a table.
-/

namespace PineEngine.Chart

open Decimal

structure Level where
  price : Value
  size : Value

def lengthOf : Value → Except Fault Nat
  | .list items => .ok items.length
  | .text s => .ok s.length
  | .dict fields => .ok fields.length
  | _ => .error .operands

namespace OrderBook

def ofColumns (prices sizes : List Value) : Except Fault (List Level) := do
  let prices ← Frame.normalize prices
  let sizes ← Frame.normalize sizes
  pure ((prices.zip sizes).map fun (p, s) => ⟨p, s⟩)

def ofRows (rows : List Value) : Except Fault (List Level) := do
  let rows ← rows.mapM Value.items
  if rows.any fun r => 2 < r.length then .error .value
  ofColumns (rows.map fun r => r[0]?.getD .absent) (rows.map fun r => r[1]?.getD .absent)

/-- The levels of one side of a book; `none` if it has neither of the two forms. -/
def read? (book : Value) : Except Fault (Option (List Level)) := do
  if (← lengthOf book) == 2 then
    let prices ← (← book.item 0).elements
    let sizes ← (← book.item 1).elements
    let n := min prices.length sizes.length
    return some (← ofColumns (prices.take n) (sizes.take n))
  if (← lengthOf (← book.item 0)) == 2 then
    return some (← ofRows (← book.items))
  return none

def comesBefore (descending : Bool) (a b : Value) : Except Fault Bool := do
  match a, b with
  | .float x, .float y =>
    if x.isNaN then pure false
    else if y.isNaN then pure true
    else pure (if descending then decide (y < x) else decide (x < y))
  | a, b => Value.holds (if descending then .gt else .lt) a b

def insert (descending : Bool) (l : Level) : List Level → Except Fault (List Level)
  | [] => .ok [l]
  | m :: rest => do
    if ← comesBefore descending l.price m.price then pure (l :: m :: rest)
    else pure (m :: (← insert descending l rest))

def sort (descending : Bool) (levels : List Level) : Except Fault (List Level) :=
  levels.foldlM (fun sorted l => insert descending l sorted) []

def best (levels : List Level) : Except Fault Value :=
  match levels with
  | l :: _ => .ok l.price
  | [] => .error .index

def numberText : Value → Except Fault String
  | .int n => .ok (Text.padStart 10 (groupText (toString n)))
  | .bool b => .ok (Text.padStart 10 (if b then "1" else "0"))
  | .float x => .ok (Text.padStart 10 (groupText (showFloat x)))
  | .text _ => .error .value
  | _ => .error .operands

def lineText (l : Level) : Except Fault String := do
  pure ((← numberText l.price) ++ " " ++ (← numberText l.size))

structure Emphasis where
  least : Value
  color : Value

def emphasize (e : Emphasis) (l : Level) (line : String) : Except Fault String := do
  if ← Value.holds .le e.least l.size then
    match ← Color.toHex e.color with
    | .text c => pure ("<b><i><span style=\"color: " ++ c ++ ";\">" ++ line ++ "</span></i></b>")
    | _ => .error .operands
  else pure line

def below (table line : String) : String :=
  (if table.isEmpty then "" else table ++ "<br>") ++ line

def tables (e : Emphasis) (bids asks : List Level) :
    List Nat → String → String → Except Fault (String × String)
  | [], bidTable, askTable => .ok (bidTable, askTable)
  | j :: rest, bidTable, askTable => do
    let some bid := bids[j]? | .error .index
    let bidLine ← lineText bid
    let some ask := asks[j]? | .error .index
    let askLine ← lineText ask
    let bidLine ← emphasize e bid bidLine
    let askLine ← emphasize e ask askLine
    tables e bids asks rest (below bidTable bidLine) (below askTable askLine)

/-- The first levels, as many as asked for; a negative number leaves that many out at the end. -/
def firstLevels (levels : List Level) (count : Int) : List Level :=
  if 0 ≤ count then levels.take count.toNat else levels.take (levels.length - count.natAbs)

/-- The number of levels that are shown: as many as asked for, but no more than there are bids. -/
def shownCount (wanted : Value) (bids : Nat) : Except Fault Int := do
  if ← Value.holds .lt (.int bids) wanted then pure bids
  else
    match wanted.whole? with
    | some n => pure n
    | none => .error .operands

structure Quote where
  bid : Value
  ask : Value
  bidTable : String
  askTable : String

def quote (wanted : Value) (e : Emphasis) (bids asks : List Level) : Except Fault Quote := do
  let bids ← sort true bids
  let asks ← sort false asks
  let bid ← best bids
  let ask ← best asks
  let count ← shownCount wanted bids.length
  let (bidTable, askTable) ← tables e (firstLevels bids count) (firstLevels asks count).reverse
    (List.range count.toNat) "" "[  price ] [  size  ]"
  pure ⟨bid, ask, bidTable, askTable⟩

end OrderBook

end PineEngine.Chart
