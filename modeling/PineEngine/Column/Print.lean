import PineEngine.Decimal.Brief
import PineEngine.Store

/-! # Columns in print

A column is printed between brackets, its cells all of one width, over as many lines as it takes. Of a long
column only the ends are shown.
-/

namespace PineEngine

structure PrintLayout where
  separator : String
  indent : String
  width : Nat

namespace PrintLayout

def plain : PrintLayout := ⟨" ", " ", 75⟩

def after (name : String) : PrintLayout :=
  ⟨", ", String.ofList (List.replicate (name.length + 2) ' '), 74⟩

def inner (l : PrintLayout) : PrintLayout :=
  { l with indent := l.indent ++ " ", width := l.width - 1 }

end PrintLayout

/-- Words between brackets, over as many lines as it takes. -/
def bracketed (l : PrintLayout) (words : List String) : String :=
  let step (acc : List String × String) (item : String × Bool) : List String × String :=
    let (done, line) := acc
    let (word, isLast) := item
    let wraps := l.width - 1 < line.length + word.length && l.indent.length < line.length
    let (done, line) := if wraps then (done ++ [Text.dropEnd line], l.indent) else (done, line)
    (done, line ++ word ++ (if isLast then "" else l.separator))
  let marked := words.zipIdx.map fun (w, i) => (w, i + 1 == words.length)
  let (done, line) := marked.foldl step ([], l.indent)
  let body := String.intercalate "\n" (done ++ [line])
  "[" ++ String.ofList (body.toList.drop l.indent.length) ++ "]"

def ends {α : Type} (long : Bool) (xs : List α) : List α × Bool :=
  if long && 6 < xs.length then (xs.take 3 ++ xs.drop (xs.length - 3), true) else (xs, false)

def withGap (gap : Bool) (words : List String) : List String :=
  if gap then words.take 3 ++ "..." :: words.drop 3 else words

namespace Cells

/-- The words of cells that stand in a row, all of one width where they are numbers or truth values. -/
def rowWords (k : Kind) (cells : List Value) : List String :=
  match k with
  | .bool => cells.map fun v => if v.isTrue then " True" else "False"
  | .int _ =>
    let words := cells.map Value.printed
    words.map (Text.padStart (Text.longest words))
  | .float => Decimal.rowTexts (cells.map fun v => v.toFloat.toOption.getD 0.0)
  | .text _ => cells.map fun v => Text.quoted v.printed
  | .object => cells.map fun v => match v with
    | .list items => "list(" ++ (Value.list items).shown ++ ")"
    | v => v.shown

end Cells

namespace Column

def textIn (l : PrintLayout) (c : Column) : String :=
  let long := 1000 < c.size
  if c.size == 0 then "[]"
  else
    match c.rowLen with
    | none =>
      let (cells, gap) := ends long c.cells.toList
      bracketed l (withGap gap (Cells.rowWords c.cells.kind cells))
    | some n =>
      let all := c.cells.toList
      let rows := (List.range c.length).map fun k => (all.drop (k * n)).take n
      let (rows, rowGap) := ends long rows
      let cut := rows.map (ends long)
      let width := (cut.head?.map (·.1.length)).getD 0
      let gap := cut.any (·.2)
      let words := Cells.rowWords c.cells.kind (cut.flatMap (·.1))
      let lines := (List.range rows.length).map fun k =>
        bracketed l.inner (withGap gap ((words.drop (k * width)).take width))
      "[" ++ String.intercalate (Text.dropEnd l.separator ++ "\n" ++ l.indent) (withGap rowGap lines) ++ "]"

def printed (c : Column) : String :=
  c.textIn .plain

/-- The column as it stands inside a printed list: with its name, and with its kind where the cells do not
    tell it. -/
def shownAs (name : String) (c : Column) : String :=
  let body := name ++ "(" ++ c.textIn (.after name)
  let kind := match c.cells.kind with
    | .bool | .int .long | .float => if c.size == 0 then some c.cells.kind.label else none
    | .text n => some (Text.quoted (Kind.text n).label)
    | k => some k.label
  match kind with
  | none => body ++ ")"
  | some k =>
    let start := body ++ ","
    let rest := "dtype=" ++ k ++ ")"
    let last := ((start.splitOn "\n").getLastD "").length
    let gap := if 75 < last + rest.length + 1 then "\n" ++ String.ofList (List.replicate (name.length + 1) ' ')
      else " "
    start ++ gap ++ rest

end Column

namespace Store

mutual

def shown (s : Store) : Value → String
  | .series r => (s.column r).shownAs (s.head r).origin.typeName
  | .list items => "[" ++ String.intercalate ", " (s.shownItems items) ++ "]"
  | .dict fields => "\x7b" ++ String.intercalate ", " (s.shownFields fields) ++ "\x7d"
  | v => v.shown

def shownItems (s : Store) : List Value → List String
  | [] => []
  | v :: rest => s.shown v :: s.shownItems rest

def shownFields (s : Store) : List (String × Value) → List String
  | [] => []
  | (k, v) :: rest => (Text.quoted k ++ ": " ++ s.shown v) :: s.shownFields rest

end

def printed (s : Store) (v : Value) : String :=
  match v with
  | .series r => (s.column r).printed
  | .list _ | .dict _ => s.shown v
  | v => v.printed

end Store

end PineEngine
