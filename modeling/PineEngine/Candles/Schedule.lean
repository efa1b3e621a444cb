import PineEngine.Candles.Archive

/-! # Keeping an archive up to date

A loader asks for new candles of every fetched resolution as soon as the next one is due, and looks again
after three seconds. What it gets is put into the queue of the resolution. A maintainer takes candles from
such a queue, merges them into the archive and computes the coarser resolutions from them.

Here the readings of the clock and the answers are given beforehand; a loader that finds none left stops.
-/

namespace PineEngine

structure ResolutionGroup where
  fetched : Value
  children : List Value

def ResolutionGroup.coarsest (g : ResolutionGroup) : Value :=
  (g.children.getLast?).getD g.fetched

abbrev ByResolution (α : Type) := List (Value × α)

namespace ByResolution

def set {α : Type} (t : ByResolution α) (res : Value) (a : α) : ByResolution α :=
  match t with
  | [] => [(res, a)]
  | (r, b) :: rest => if r.same res then (r, a) :: rest else (r, b) :: set rest res a

def modify {α : Type} (t : ByResolution α) (res : Value) (f : α → α) : ByResolution α :=
  t.map fun (r, a) => if r.same res then (r, f a) else (r, a)

end ByResolution

structure Loading where
  /-- The times of the candles that are still to come, answer by answer. -/
  answers : List (List Value)
  asked : List (Value × Value × Value) := []
  slept : List Nat := []
  queued : ByResolution (List (List Value)) := []

inductive LoadingEnd where
  | stopped
  | fault (e : Fault)

abbrev LoadM := ExceptT LoadingEnd (StateM Loading)

instance : MonadLift (Except Fault) LoadM :=
  ⟨fun r => match r with
    | .ok a => pure a
    | .error e => throw (.fault e)⟩

namespace Loading

def leastCount : Nat := 500

def pause : Nat := 3

def seconds (minutes : Value) : Except Fault Value :=
  Value.arith .mul minutes (.int 60)

def firstDue (count : Int) (now : Value) (groups : List ResolutionGroup) : Except Fault (ByResolution Value) :=
  groups.foldlM (fun due g => do
    let back ← Value.arith .mul (← seconds g.coarsest) (.int (count - 1))
    pure (ByResolution.set due g.fetched (← Value.arith .sub now back))) []

def nextAnswer : LoadM (List Value) := do
  match (← get).answers with
  | [] => throw .stopped
  | times :: rest =>
    modify fun s => { s with answers := rest }
    pure times

/-- Asks for the candles of a resolution if they are due; gives the time at which the next ones are. -/
def fetchDue (now res due : Value) : LoadM Value := do
  if ← Value.holds .lt now due then return due
  let start ← Value.arith .sub due (← seconds res)
  modify fun s => { s with asked := s.asked ++ [(res, start, now)] }
  let times ← nextAnswer
  let last ← Value.itemOf times (-1)
  if ← Value.holds .lt last due then return due
  modify fun s => { s with queued := ByResolution.modify s.queued res (· ++ [times]) }
  Value.arith .add last (← seconds res)

def look (now : Value) : ByResolution Value → LoadM (ByResolution Value)
  | [] => pure []
  | (res, due) :: rest => do
    let next ← fetchDue now res due
    pure ((res, next) :: (← look now rest))

def earliest (due : ByResolution Value) : Except Fault Value :=
  match due with
  | [] => .error .value
  | (_, t) :: rest => rest.foldlM (fun best (_, u) => do
    pure (if ← Value.holds .lt u best then u else best)) t

/-- Looks again and again; every look takes one reading of the clock at its start and one at its end. -/
def rounds (due : ByResolution Value) : List Value → LoadM Unit
  | [] => throw .stopped
  | [now] => do
    let due ← look now due
    let _ ← earliest due
    throw .stopped
  | now :: after :: rest => do
    let due ← look now due
    let _ ← Value.arith .sub (← earliest due) after
    modify fun s => { s with slept := s.slept ++ [pause] }
    rounds due rest

def load (count : Int) (groups : List ResolutionGroup) (clock : List Value) : LoadM Unit := do
  modify fun s => { s with queued := groups.foldl (fun q g => ByResolution.set q g.fetched []) [] }
  match clock with
  | [] => throw .stopped
  | now :: rest => rounds (← firstDue count now groups) rest

end Loading

namespace ArchiveM

def maintain (g : ResolutionGroup) (batch : Fields) : ArchiveM Unit := do
  update g.fetched batch
  g.children.forM (downsample g.fetched)

/-- A line on the last candle of a resolution: its number, the minute of the hour, price and volume. -/
def reportLine (tickerId : String) (res : Value) : ArchiveM String := do
  let c ← candles res
  let last ← Value.itemOf c.time (-1)
  let minute ← (← Value.arith .div (← Value.arith .mod last (.int 3600)) (.int 60)).toInt
  let price ← Value.itemOf c.closing (-1)
  let volume ← Value.itemOf c.volume (-1)
  pure (tickerId ++ ": " ++ res.printed ++ ": #=" ++ toString c.time.length ++ ": t=" ++ toString minute ++
    " c=" ++ price.printed ++ " v=" ++ volume.printed)

end ArchiveM

structure Maintenance where
  archive : Archive := []
  states : List Archive := []
  lines : List String := []

namespace Maintenance

def report (tickerId : String) (m : Maintenance) : List Value → Except Fault Unit × Maintenance
  | [] => (.ok (), m)
  | res :: rest =>
    match ((ArchiveM.reportLine tickerId res).run).run m.archive with
    | (.ok line, _) => report tickerId { m with lines := m.lines ++ [line] } rest
    | (.error e, _) => (.error e, m)

def round (tickerId : String) (g : ResolutionGroup) (m : Maintenance) (batch : Fields) :
    Except Fault Unit × Maintenance :=
  match ((ArchiveM.maintain g batch).run).run m.archive with
  | (.error e, a) => (.error e, { m with archive := a })
  | (.ok _, a) =>
    match report tickerId { m with archive := a } (g.fetched :: g.children) with
    | (.error e, m) => (.error e, m)
    | (.ok _, m) => (.ok (), { m with states := m.states ++ [m.archive] })

def run (tickerId : String) (g : ResolutionGroup) (m : Maintenance) :
    List Fields → Except Fault Unit × Maintenance
  | [] => (.ok (), m)
  | batch :: rest =>
    match round tickerId g m batch with
    | (.error e, m) => (.error e, m)
    | (.ok _, m) => run tickerId g m rest

end Maintenance

end PineEngine
