import PineEngine.Column

/-! # The store of series

A series is a view of a column together with its valid index, the last position that is known. Series
are referred to by their place in the store, and two of them may look at the same column: what is stored
through one is then seen through the other.
-/

namespace PineEngine

/-- The price columns that a script can refer to by name. -/
inductive Source where
  | open | high | low | close | hl2 | hlc3 | ohlc4 | time
  deriving DecidableEq, Repr

namespace Source

def label : Source → String
  | .open => "open"
  | .high => "high"
  | .low => "low"
  | .close => "close"
  | .hl2 => "hl2"
  | .hlc3 => "hlc3"
  | .ohlc4 => "ohlc4"
  | .time => "time"

/-- The sources that an input can be set to, in the order in which they are offered. -/
def offered : List Source :=
  [.close, .high, .hl2, .hlc3, .low, .ohlc4, .open]

def ofLabel? (s : String) : Option Source :=
  (Source.time :: offered).find? (·.label == s)

end Source

inductive Origin where
  | plain
  | computed
  | source (s : Source)
  deriving DecidableEq, Repr

instance : Inhabited Origin := ⟨.plain⟩

namespace Origin

def typeName : Origin → String
  | plain => "Series"
  | _ => "BuiltinSeries"

def derived : Origin → Origin
  | plain => plain
  | _ => computed

end Origin

/-- A series: the column it looks at, its valid index, and where it comes from. -/
structure SeriesHead where
  column : Nat
  valid : Int
  origin : Origin
  deriving Inhabited, Repr

structure Store where
  columns : Array Column := #[]
  series : Array SeriesHead := #[]
  deriving Inhabited

namespace Store

def head (s : Store) (r : SeriesRef) : SeriesHead :=
  s.series[r.id]?.getD ⟨0, -1, .plain⟩

def column (s : Store) (r : SeriesRef) : Column :=
  s.columns[(s.head r).column]?.getD ⟨.floats #[], none⟩

def valid (s : Store) (r : SeriesRef) : Int :=
  (s.head r).valid

def alloc (s : Store) (c : Column) (valid : Int) (origin : Origin) : SeriesRef × Store :=
  (⟨s.series.size⟩, ⟨s.columns.push c, s.series.push ⟨s.columns.size, valid, origin⟩⟩)

def view (s : Store) (r : SeriesRef) (valid : Int) : SeriesRef × Store :=
  (⟨s.series.size⟩, { s with series := s.series.push ⟨(s.head r).column, valid, .plain⟩ })

def setColumn (s : Store) (r : SeriesRef) (c : Column) : Store :=
  { s with columns := s.columns.setIfInBounds (s.head r).column c }

def setValid (s : Store) (r : SeriesRef) (valid : Int) : Store :=
  { s with series := s.series.setIfInBounds r.id { s.head r with valid := valid } }

end Store

/-- Computations that may change the store, and may fail; what they changed before they failed stays. -/
abbrev SeriesM := ExceptT Fault (StateM Store)

def SeriesM.ofExcept {α : Type} (r : Except Fault α) : SeriesM α :=
  match r with
  | .ok a => pure a
  | .error e => throw e

instance : MonadLift (Except Fault) SeriesM := ⟨SeriesM.ofExcept⟩

end PineEngine
