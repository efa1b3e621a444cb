import PineEngine.Broker
import PineEngine.Builtin.Library
import PineEngine.Market
import PineEngine.Script.Resolve
import PineEngine.Series

/-! # The machine

A machine evaluates a script once per bar of a market. Registers keep the values of definitions, choices
and some built-in variables from bar to bar. A register that holds a series is changed at one bar only,
the current one; `Machine.bar` counts the bars.

Registers and bars exist only after a script was loaded; what asks for them before fails.
-/

namespace PineEngine

open Script Builtin

inductive Mode where
  /-- To find out which inputs a script asks for. -/
  | scan
  | plain
  | plot
  deriving DecidableEq, Repr

structure Register where
  code : Code
  value : Value
  deriving Inhabited

structure Context where
  registers : List Register := []
  timestamps : SeriesRef
  bar : Int := 0
  deriving Inhabited

structure Machine where
  mode : Mode
  market : Market
  /-- What computes averages, extremes and the like. -/
  library : Library := Library.empty
  store : Store := {}
  broker : Option Broker := none
  program : Program := Program.empty
  annotations : Annotations := {}
  header : Fields := []
  /-- Values for the inputs of the script, by title. -/
  userInputs : Value := .absent
  context : Option Context := none
  outputs : List Fields := []
  fills : List Fields := []

/-- Computations of a machine; what they changed before they failed stays. -/
abbrev MachineM := ExceptT Fault (StateM Machine)

namespace Machine

def onStore {α : Type} (m : SeriesM α) : MachineM α := do
  let r ← modifyGet fun s =>
    let store := s.store
    let s := { s with store := {} }
    let (r, store) := (m.run).run store
    (r, { s with store := store })
  MonadExcept.ofExcept r

end Machine

instance : MonadLift (Except Fault) MachineM := ⟨MonadExcept.ofExcept⟩

namespace Machine

/-- Where a node is evaluated: the definitions that some assignment changes, and whether a loop is going
    on. -/
structure Scope where
  mutable : List Nat
  inLoop : Bool := false

def title (m : Machine) : Value :=
  (m.header.lookup "title").getD (.text "No title")

def overlay (m : Machine) : Value :=
  (m.header.lookup "overlay").getD (.bool false)

def size (m : Machine) : Nat :=
  m.market.size

/-- The run over the bars, once a script is loaded. -/
def current : MachineM Context := do
  match (← get).context with
  | some c => pure c
  | none => throw .member

def barCount : MachineM Nat := do
  pure (← get).size

def bar : MachineM Int := do
  pure (← current).bar

def modifyContext (f : Context → Context) : MachineM Unit := do
  let c ← current
  modify fun m => { m with context := some (f c) }

def sourceSeries (s : Source) (values : List Value) : MachineM SeriesRef := do
  let c ← Column.ofValues values
  onStore (SeriesRef.make c ((values.length : Int) - 1) (.source s))

def reset : MachineM Unit := do
  let times ← sourceSeries .time (← get).market.candles.time
  modify fun m => { m with context := some { timestamps := times } }

def register? (c : Context) (id : Option Nat) : Option Register :=
  c.registers.find? (·.code.id? == id)

/-- The value that is kept for a node; nothing if there is none. -/
def getRegister (code : Code) : MachineM Value := do
  pure ((register? (← current) code.id?).map (·.value) |>.getD .absent)

def putRegister (rs : List Register) (code : Code) (v : Value) : List Register :=
  match rs with
  | [] => [⟨code, v⟩]
  | r :: rest => if r.code.id? == code.id? then ⟨r.code, v⟩ :: rest else r :: putRegister rest code v

/-- Keeps a value for a node. Inside a loop nothing new can be kept. -/
def setRegister (scope : Scope) (code : Code) (v : Value) : MachineM Value := do
  modifyContext fun c => { c with registers := putRegister c.registers code v }
  if scope.inLoop then throw .operands
  pure v

/-- The value as a message prints it. A definition is printed as code. -/
def printedValue (v : Value) : MachineM String := do
  match v with
  | .definition id =>
    let m ← get
    match register? (← current) (some id) with
    | some r => pure ((r.code.outline m.program.mutable []).1.text true)
    | none => pure v.printed
  | v => pure v.printed

/-- A value that tells the kind of another: the default of a series, any other value itself. -/
def sample (v : Value) : MachineM Value :=
  match v with
  | .series r => onStore (SeriesRef.default r)
  | v => pure v

/-- What a definition that assignments change starts with, by the kind of its first value. -/
def startValue (v : Value) : MachineM Value := do
  match ← sample v with
  | .float _ | .cell (.float _) => pure (.float notANumber)
  | .int _ | .bool _ => pure (.int 0)
  | v => throw (.script (.immutableKind v.typeShown (← printedValue v)))

/-- Keeps a series for a definition that assignments change: as many defaults as there are bars, none of
    them valid. The first value decides the kind of the series. -/
def allocRegister (scope : Scope) (code : Code) (v : Value) : MachineM Value := do
  let start ← startValue v
  let r ← onStore (SeriesRef.unknown (← barCount) start)
  setRegister scope code (.series r)

/-- Stores a value at the current bar of the series that is kept for a node. -/
def setRegisterValue (code : Code) (v : Value) : MachineM Unit := do
  let c ← current
  match register? c code.id? with
  | none => throw .key
  | some { value := .series r, .. } => do
    onStore (SeriesRef.set r c.bar v)
    onStore (SeriesRef.setValid r c.bar)
  | some _ => throw .operands

def isLastStep : MachineM Bool := do
  pure ((← bar) + 1 == (← barCount))

/-- Whether a value counts as true. A series counts only if it has a single entry. -/
def truth (v : Value) : MachineM Bool := do
  match v with
  | .series r =>
    let c ← onStore (SeriesRef.column r)
    match c.cells.toList with
    | [w] => pure w.isTrue
    | _ => throw .value
  | v => pure v.isTrue

def now (v : Value) : MachineM Value := do
  match v with
  | .series r => do
    let i ← bar
    onStore (SeriesRef.get r i)
  | v => pure v

def withBroker (m : BrokerM Unit) : MachineM Unit := do
  match (← get).broker with
  | none => pure ()
  | some b =>
    let (r, b) := (m.run).run b
    modify fun s => { s with broker := some b }
    MonadExcept.ofExcept r

end Machine

end PineEngine
