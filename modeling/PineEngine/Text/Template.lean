import PineEngine.Column
import PineEngine.Decimal.Fixed

/-! # Templates

Filling the places of a text that start with a percent sign: flags, a width, a precision, and a letter
for the form. The filler is one value; a list or a table need not be used up.
-/

namespace PineEngine.Text

structure Place where
  left : Bool := false
  plus : Bool := false
  blank : Bool := false
  full : Bool := false
  zero : Bool := false
  width : Nat := 0
  precision : Option Nat := none

def Place.flags (p : Place) : List Char → Place × List Char
  | '-' :: rest => flags { p with left := true } rest
  | '+' :: rest => flags { p with plus := true } rest
  | ' ' :: rest => flags { p with blank := true } rest
  | '#' :: rest => flags { p with full := true } rest
  | '0' :: rest => flags { p with zero := true } rest
  | cs => (p, cs)

def leadingNumber (cs : List Char) : Nat × List Char :=
  (Decimal.ofDigits ((cs.takeWhile Char.isDigit).map fun c => c.toNat - '0'.toNat), cs.dropWhile Char.isDigit)

def Place.sizes (p : Place) (cs : List Char) : Place × List Char :=
  let (w, cs) := leadingNumber cs
  let p := { p with width := w }
  match cs with
  | '.' :: rest =>
    let (n, rest) := leadingNumber rest
    ({ p with precision := some n }, rest)
  | _ => (p, cs)

def Place.pad (p : Place) (sign body : String) (numeric : Bool) : String :=
  let gap := p.width - (sign.length + body.length)
  if p.left then sign ++ body ++ String.ofList (List.replicate gap ' ')
  else if p.zero && numeric then sign ++ String.ofList (List.replicate gap '0') ++ body
  else String.ofList (List.replicate gap ' ') ++ sign ++ body

def Place.sign (p : Place) (negative : Bool) : String :=
  if negative then "-" else if p.plus then "+" else if p.blank then " " else ""

def Place.whole (p : Place) (n : Int) (base : Nat) (mark : String) (upper : Bool) : String :=
  let digits := String.ofList (Nat.toDigits base n.natAbs)
  let digits := if upper then String.ofList (digits.toList.map Char.toUpper) else digits
  let digits := String.ofList (List.replicate (p.precision.getD 0 - digits.length) '0') ++ digits
  p.pad (p.sign (n < 0) ++ (if p.full then mark else "")) digits true

def Place.decimal (p : Place) (x : Float) (form : Char) : String :=
  let upper := form.isUpper
  let case (s : String) : String := if upper then String.ofList (s.toList.map Char.toUpper) else s
  match Decimal.magnitude? x with
  | none =>
    if x.isNaN then p.pad (p.sign false) (case "nan") false
    else p.pad (p.sign (x < 0)) (case "inf") false
  | some (negative, n, d) =>
    let digits := p.precision.getD 6
    let body := match form.toLower with
      | 'f' => Decimal.fixedMagnitude n d digits
      | 'e' => Decimal.scientificMagnitude n d digits
      | _ => Decimal.generalMagnitude n d digits p.full
    p.pad (p.sign negative) (case body) true

def Place.cut (p : Place) (s : String) : String :=
  match p.precision with
  | some n => Cells.cutText n s
  | none => s

def Place.fill (p : Place) (form : Char) (v : Value) : Except Fault String :=
  let number : Except Fault Value := match v with
    | .text _ => .error .operands
    | .cell (.text _) => .error .operands
    | v => .ok v
  let exact : Except Fault Int := match v.plain with
    | .int n => .ok n
    | .bool b => .ok (if b then 1 else 0)
    | _ => .error .operands
  match form with
  | 's' => .ok (p.pad "" (p.cut v.printed) false)
  | 'r' => .ok (p.pad "" (p.cut v.shown) false)
  | 'a' => .ok (p.pad "" (p.cut v.shown) false)
  | 'd' => do .ok (p.whole (← (← number).toInt) 10 "" false)
  | 'i' => do .ok (p.whole (← (← number).toInt) 10 "" false)
  | 'u' => do .ok (p.whole (← (← number).toInt) 10 "" false)
  | 'x' => do .ok (p.whole (← exact) 16 "0x" false)
  | 'X' => do .ok (p.whole (← exact) 16 "0X" true)
  | 'o' => do .ok (p.whole (← exact) 8 "0o" false)
  | 'c' =>
    match v.plain with
    | .text s => if s.length == 1 then .ok (p.pad "" s false) else .error .operands
    | .int n =>
      if 0 ≤ n && n < 0x110000 then .ok (p.pad "" (String.singleton (Char.ofNat n.toNat)) false)
      else .error .overflow
    | .bool b => .ok (p.pad "" (String.singleton (Char.ofNat (if b then 1 else 0))) false)
    | _ => .error .operands
  | form =>
    if ['e', 'E', 'f', 'F', 'g', 'G'].contains form then do
      .ok (p.decimal (← (← number).toFloat) form)
    else .error .value

/-- Fills the places of a template; `filler` is `none` once it was used. The budget is the length of the
    template. -/
def fillPlaces (filler : Option Value) : Nat → List Char → Except Fault (List Char × Option Value)
  | 0, _ => .ok ([], filler)
  | _ + 1, [] => .ok ([], filler)
  | fuel + 1, '%' :: rest =>
    let (p, rest) := ({} : Place).flags rest
    let (p, rest) := p.sizes rest
    match rest with
    | [] => .error .value
    | '%' :: rest => do
      let (out, filler) ← fillPlaces filler fuel rest
      .ok ('%' :: out, filler)
    | '(' :: _ => .error .operands
    | form :: rest =>
      match filler with
      | none => .error .operands
      | some v => do
        let s ← p.fill form v
        let (out, filler) ← fillPlaces none fuel rest
        .ok (s.toList ++ out, filler)
  | fuel + 1, c :: rest => do
    let (out, filler) ← fillPlaces filler fuel rest
    .ok (c :: out, filler)

def fillTemplate (template : String) (v : Value) : Except Fault String := do
  let cs := template.toList
  let (out, left) ← fillPlaces (some v) cs.length cs
  match left with
  | none => .ok (String.ofList out)
  | some (.list _) => .ok (String.ofList out)
  | some (.dict _) => .ok (String.ofList out)
  | some (.series _) => .ok (String.ofList out)
  | some _ => .error .operands

end PineEngine.Text
