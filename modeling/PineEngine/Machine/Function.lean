import PineEngine.Builtin.Indicator
import PineEngine.Builtin.Parameters
import PineEngine.Machine.Variable
import PineEngine.Time.Calendar

/-! # Built-in functions at a bar

What a call of a built-in function does. Calls that give orders leave actions with the broker; calls that
describe the script set the header. Drawings do nothing here; a machine that collects them replaces them.
-/

namespace PineEngine.Machine

open Builtin

def typeName (s : Store) (v : Value) : String :=
  match v with
  | .series r => (s.head r).origin.typeName
  | v => v.typeName "Series"

def bind (sig : Signature) (args : List Value) (named : Fields) : MachineM Arguments := do
  sig.bind (typeName (← get).store) args named

/-- Binds the arguments of a call to one signature, and to another one if they do not fit. -/
def bindOr (sig other : Signature) (args : List Value) (named : Fields) :
    MachineM (Arguments ⊕ Arguments) := do
  match sig.bind (typeName (← get).store) args named with
  | .ok a => pure (.inl a)
  | .error (.argument _) => do pure (.inr (← bind other args named))
  | .error e => throw e

def seriesArg (a : Arguments) (name : String) : Except Fault SeriesRef :=
  match a.value name with
  | .series r => .ok r
  | _ => .error .operands

def intArg (a : Arguments) (name : String) : Except Fault Int :=
  match (a.value name).whole? with
  | some n => .ok n
  | none => .error .operands

/-- Whether an order is to be given: its condition is missing or holds now. -/
def isDue (a : Arguments) : MachineM Bool := do
  match a.value "when" with
  | .absent => pure true
  | v => do pure (← SeriesRef.entryTruth (← now v))

/-- The arguments of a call that may go without a source, and the source. Without one the highs or the
    lows count. -/
def withSource (larger : Bool) (sig other : Signature) (args : List Value) (named : Fields) :
    MachineM (Arguments × SeriesRef) := do
  match ← bindOr sig other args named with
  | .inl a => do pure (a, ← seriesArg a "source")
  | .inr a => do
    match ← source (if larger then .high else .low) with
    | .series r => pure (a, r)
    | _ => throw .operands

def pivotOf (larger : Bool) (args : List Value) (named : Fields) : MachineM Value := do
  let sig := (if larger then Function.pivothigh else .pivotlow).signature
  let (a, r) ← withSource larger sig neighbourhood args named
  let left ← intArg a "leftbars"
  let right ← intArg a "rightbars"
  pure (.series (← onStore (Indicator.pivot larger r left right)))

def askLibrary (fn : LibraryFunction) (sources : List SeriesRef) (length : Int)
    (finish : Column → Except Fault Column) : MachineM (Except LibraryFault Column) := do
  let columns ← sources.mapM fun r => onStore r.column
  match (← get).library fn columns length with
  | .ok c => do pure (.ok (← finish c))
  | .error e => pure (.error e)

def computed (r : SeriesRef) (answer : Except LibraryFault Column) : MachineM Value := do
  match answer with
  | .ok c => do pure (.series (← onStore (do SeriesRef.make c (← r.valid) .plain)))
  | .error .noNumbers => throw .value
  | .error (.other e) => throw e

def computedOrCopy (r : SeriesRef) (answer : Except LibraryFault Column) : MachineM Value := do
  match answer with
  | .error .noNumbers => do pure (.series (← onStore r.copy))
  | answer => computed r answer

def extremesOf (larger : Bool) (args : List Value) (named : Fields) : MachineM Value := do
  let sig := (if larger then Function.highest else .lowest).signature
  let (a, r) ← withSource larger sig lengthOnly args named
  let answer ← askLibrary (if larger then .highest else .lowest) [r] (← intArg a "length") .ok
  computed r answer

def zoneMinutes (a : Arguments) : Except Fault Int :=
  match a.value "timezone" with
  | .text name =>
    match Time.zoneOffset? name with
    | some minutes => .ok minutes
    | none => .error .unknownZone
  | _ => .error .unknownZone

def dateSeconds (zoned : Bool) (a : Arguments) : Except Fault Int := do
  let zone ← if zoned then zoneMinutes a else .ok 0
  let m ← Time.Moment.ofParts (← intArg a "year") (← intArg a "month") (← intArg a "day")
    (← intArg a "hour") (← intArg a "minute")
  if !zoned && m.year == 1 && m.month == 1 && m.day == 1 then .error .value
  else pure (m.seconds - zone * 60)

/-- The seconds of a date, in a zone if the first argument names one. -/
def timestamp (args : List Value) (named : Fields) : MachineM Value := do
  let zoned := match args with
    | .text _ :: _ => true
    | _ => false
  let a ← bind (if zoned then zonedDateParts else dateParts) args named
  pure (.int (← dateSeconds zoned a))

def apply (fn : Function) (args : List Value) (named : Fields) : MachineM Value := do
  let bound : MachineM Arguments := bind fn.signature args named
  let series (m : SeriesM SeriesRef) : MachineM Value := do pure (.series (← onStore m))
  let average (f : LibraryFunction) : MachineM Value := do
    let a ← bound
    let r ← seriesArg a "source"
    computedOrCopy r (← askLibrary f [r] (← intArg a "length") .ok)
  match fn with
  | .study | .strategy => do
    let a ← bound
    modify fun m => { m with header := a }
    pure .absent
  | .input => do pure ((← bound).value "defval")
  | .security => do
    let _ ← bound
    throw .unimplemented
  | .close => do
    let a ← bound
    if ← isDue a then withBroker (Broker.close a)
    pure .absent
  | .closeAll => do
    let a ← bound
    if ← isDue a then withBroker (Broker.closeAll a)
    pure .absent
  | .entry => do
    if (← get).broker.isSome then
      let a ← bound
      if ← isDue a then withBroker (Broker.entry a)
    pure .absent
  | .plot | .plotshape | .hline | .fill | .drawing | .bgcolor => pure .absent
  | .abs => do
    let a ← bound
    onStore (Indicator.abs (a.value "source"))
  | .barssince => do
    let a ← bound
    series (Indicator.barssince (← barCount) (a.value "condition"))
  | .color => do
    let a ← bound
    pure (.text ((a.value "color").printed ++ ":" ++ (a.value "transp").printed))
  | .cross => do
    let a ← bound
    series (Indicator.cross (← barCount) (← seriesArg a "x") (a.value "y"))
  | .crossover => do
    let a ← bound
    series (Indicator.crossover (← barCount) (← seriesArg a "x") (a.value "y"))
  | .crossunder => do
    let a ← bound
    series (Indicator.crossunder (← barCount) (← seriesArg a "x") (a.value "y"))
  | .ema => average .ema
  | .sma => average .sma
  | .wma => average .wma
  | .stdev => average .stdev
  | .linreg => do
    let a ← bound
    let r ← seriesArg a "source"
    let offset ← intArg a "offset"
    computedOrCopy r (← askLibrary .linreg [r] (← intArg a "length") fun c =>
      Column.arith .add (.column c) (.single (.int offset)))
  | .stoch => do
    let a ← bound
    let r ← seriesArg a "source"
    let bounds := [← seriesArg a "high", ← seriesArg a "low"]
    computedOrCopy r (← askLibrary .stoch (bounds ++ [r]) (← intArg a "length") .ok)
  | .highest => extremesOf true args named
  | .lowest => extremesOf false args named
  | .rsi => do
    let a ← bound
    let r ← seriesArg a "x"
    if ← (← onStore (r.get (-1))).isNaN then series r.copy
    else computed r (← askLibrary .rsi [r] (← intArg a "y") .ok)
  | .max => do
    let a ← bound
    series (Indicator.extreme true (a.value "x") (a.value "y"))
  | .min => do
    let a ← bound
    series (Indicator.extreme false (a.value "x") (a.value "y"))
  | .na => do
    let a ← bound
    onStore (Indicator.na (a.value "x"))
  | .nz => do
    let a ← bound
    let substitute := match a.value "y" with
      | .absent => .float 0.0
      | v => v
    onStore (Indicator.nz (a.value "x") substitute)
  | .offset => do
    let a ← bound
    series ((← seriesArg a "source").shift (← intArg a "offset"))
  | .pivothigh => pivotOf true args named
  | .pivotlow => pivotOf false args named
  | .rma => do
    let a ← bound
    series (Indicator.rma (← seriesArg a "source") (← intArg a "length"))
  | .timestamp => timestamp args named
  | .valuewhen => do
    let a ← bound
    series (Indicator.valuewhen (← barCount) (a.value "condition") (← seriesArg a "source")
      (← intArg a "occurrence"))
  | .order | .unavailable => throw .unimplemented

end PineEngine.Machine
