import PineEngine.Text.Blank

/-! # Layout

Comments are dropped, and marks are put at the ends of the lines: a delimiter after a statement, and one
mark for each level of indentation that the next line opens or closes. A level is four columns wide, a
tab counts as four blanks, and a part of a level counts as a whole one.

`Layout.complement` is undefined for one kind of text only: there is no line whose end could open the
block of a first line that is indented.
-/

namespace PineEngine.Script

inductive Mark where
  | opening
  | closing
  | delim
  deriving DecidableEq, Repr

def Mark.text : Mark → List Char
  | .opening => "|BGN|".toList
  | .closing => "|END|".toList
  | .delim => "|DLM|".toList

namespace Layout

/-- Drops comments: two slashes and the rest of the line. -/
def dropComments : List Char → List Char
  | [] => []
  | '/' :: '/' :: rest => skip rest
  | c :: rest => c :: dropComments rest
where
  skip : List Char → List Char
    | [] => []
    | '\n' :: rest => '\n' :: dropComments rest
    | _ :: rest => skip rest

/-- The columns that the blanks and tabs at the start of a line take. -/
def width : List Char → Nat
  | ' ' :: rest => 1 + width rest
  | '\t' :: rest => 4 + width rest
  | _ => 0

def level (line : List Char) : Nat :=
  (width line + 3) / 4

def nextLevel? : List (List Char) → Option Nat
  | [] => none
  | line :: rest => if line.isEmpty then nextLevel? rest else some (level line)

/-- The marks after a line of level `current` that is not blank, before the given lines. -/
def marksBefore (current : Nat) (rest : List (List Char)) : List Mark :=
  match nextLevel? rest with
  | none => [.delim]
  | some next =>
    if current < next then List.replicate (next - current) .opening
    else .delim :: List.replicate (current - next) .closing

structure MarkedLine where
  text : List Char
  marks : List Mark

def MarkedLine.render (l : MarkedLine) : List Char :=
  l.text ++ l.marks.flatMap Mark.text

/-- Marks the lines of a text; `depth` levels are open before them, and all are closed at the end. -/
def markLines (depth : Nat) : List (List Char) → List MarkedLine
  | [] => []
  | line :: rest =>
    let here := if line.isEmpty then depth else level line
    let marks := if line.isEmpty then [] else marksBefore here rest
    let atEnd := if rest.isEmpty then List.replicate here Mark.closing else []
    ⟨line, marks ++ atEnd⟩ :: markLines here rest

/-- Marks all lines. A first line that is blank opens the block of the first line that is not. -/
def mark? (lines : List (List Char)) : Option (List MarkedLine) :=
  match lines with
  | [] => some []
  | first :: rest =>
    if first.isEmpty then
      let opening := List.replicate ((nextLevel? rest).getD 0) Mark.opening
      match markLines 0 lines with
      | [] => some []
      | l :: ls => some (⟨l.text, opening ++ l.marks⟩ :: ls)
    else if level first == 0 then some (markLines 0 lines)
    else none

def joinLines (lines : List (List Char)) : List Char :=
  List.intercalate ['\n'] lines

/-- Puts the marks into a text; `none` if its first line is indented. -/
def complement? (cs : List Char) : Option (List Char) :=
  (mark? ((Text.lines cs).map Text.trimEnd)).map fun ls => joinLines (ls.map MarkedLine.render)

/-- The text that is cut into tokens: without comments, with marks. -/
def prepare? (code : String) : Option (List Char) :=
  complement? (dropComments code.toList)

end Layout

end PineEngine.Script
