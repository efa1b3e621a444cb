import PineEngine.Time.Calendar
import PineEngine.Value.Entry

/-! # Instants

Instants of universal time to the nanosecond, as charts write them.
-/

namespace PineEngine.Time

open Decimal

structure Instant where
  nanos : Int

namespace Instant

def perSecond : Int := 1000000000

def ofSeconds (v : Value) : Except Fault Instant := do
  match v.plain with
  | .int n => pure ⟨n * perSecond⟩
  | .bool b => pure ⟨(if b then 1 else 0) * perSecond⟩
  | .float x =>
    match truncate? x with
    | none => .error .value
    | some whole =>
      let rest := x - (floatOfInt? whole).getD 0.0
      let nanos := (truncate? (roundPlaces rest 9 * 1e9)).getD 0
      pure ⟨whole * perSecond + nanos⟩
  | _ => .error .value

def later (t : Instant) (hours : Int) : Instant :=
  ⟨t.nanos + hours * 3600 * perSecond⟩

def moment (t : Instant) : Moment :=
  Moment.ofSeconds (t.nanos / perSecond)

def padded (width : Nat) (n : Int) : String :=
  let digits := toString n
  zeros (width - digits.length) ++ digits

def isoText (t : Instant) : String :=
  let m := t.moment
  let rest := t.nanos % perSecond
  let fraction :=
    if rest == 0 then ""
    else if rest % 1000 == 0 then "." ++ padded 6 (rest / 1000)
    else "." ++ padded 9 rest
  padded 4 m.year ++ "-" ++ padded 2 m.month ++ "-" ++ padded 2 m.day ++ "T" ++ padded 2 m.hour ++ ":" ++
    padded 2 m.minute ++ ":" ++ padded 2 m.second ++ fraction

end Instant

inductive LabelStyle where
  | date
  | minutes
  | seconds

namespace LabelStyle

def pattern : LabelStyle → String
  | date => "%y/%m/%d"
  | minutes => "%m/%d %H:%M"
  | seconds => "%m/%d %H:%M:%S"

def label (style : LabelStyle) (t : Instant) : String :=
  let m := t.moment
  let two := Instant.padded 2
  let day := two m.month ++ "/" ++ two m.day
  match style with
  | date => two (m.year % 100) ++ "/" ++ day
  | minutes => day ++ " " ++ two m.hour ++ ":" ++ two m.minute
  | seconds => day ++ " " ++ two m.hour ++ ":" ++ two m.minute ++ ":" ++ two m.second

end LabelStyle

end PineEngine.Time
