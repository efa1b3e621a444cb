import PineEngine.Value.Entry

/-! # Positions and orders

A ledger numbers every order that it applies. A position is held by the order that opened it: orders of
the same name that follow are added to that order, and a position of zero is dropped. Orders of a step are
planned from the positions before the step, and applied afterwards.
-/

namespace PineEngine

abbrev Action := Fields

/-- An order: the name of the position, and the change of it. -/
structure Order where
  id : Value
  qty : Value
  deriving Inhabited

/-- The orders that were applied, and the positions that they hold. -/
structure Ledger where
  orders : Array Order := #[]
  positions : List (Value × Nat) := []
  history : List (List Nat) := []
  deriving Inhabited

abbrev LedgerM := ExceptT Fault (StateM Ledger)

instance : MonadLift (Except Fault) LedgerM :=
  ⟨fun r => match r with
    | .ok a => pure a
    | .error e => throw e⟩

def Order.toFields (o : Order) : Fields :=
  [("id", o.id), ("qty", o.qty)]

namespace Ledger

def order (l : Ledger) (n : Nat) : Order :=
  l.orders[n]?.getD ⟨.absent, .absent⟩

def holdings (l : Ledger) : List Order :=
  l.positions.map fun (_, n) => l.order n

def record (l : Ledger) : List (List Order) :=
  l.history.map fun step => step.map l.order

def holder? (l : Ledger) (id : Value) : Except Fault (Option Nat) :=
  if id.isKey then .ok ((l.positions.find? fun (k, _) => k.same id).map (·.2))
  else .error .operands

def positionSize (l : Ledger) : Except Fault Value :=
  l.holdings.foldlM (fun s o => Value.arith .add s o.qty) (.float 0.0)

/-- The order that closes the position of a name; none if there is no such position. -/
def closeOne (l : Ledger) (id : Value) : Except Fault (List Order) := do
  match ← l.holder? id with
  | some n => pure [⟨id, ← (l.order n).qty.negate⟩]
  | none => pure []

def closeEach (l : Ledger) (ids : List Value) : Except Fault (List Order) := do
  pure (← ids.mapM l.closeOne).flatten

def oneSide (l : Ledger) (op : CompareOp) : Except Fault (List (Value × Value)) :=
  (l.positions.map fun (k, n) => (k, (l.order n).qty)).filterM fun (_, qty) =>
    Value.holds op qty (.int 0)

def closeSide (l : Ledger) (op : CompareOp) : Except Fault (List Order) := do
  l.closeEach ((← l.oneSide op).map (·.1))

/-- The order that brings the positions in the direction of an entry to the quantity that it asks for;
    none if they reach it already. -/
def openPosition (l : Ledger) (a : Action) : Except Fault (List Order) := do
  let long := (← a.get "long").isTrue
  let side := if long then CompareOp.gt else .lt
  let held ← Value.sum ((← l.oneSide side).map (·.2))
  let wanted ← a.get "qty"
  let wanted ← if long then pure wanted else wanted.negate
  let missing ← Value.arith .sub wanted held
  let reached (q : Value) : Except Fault Bool :=
    Value.holds (if long then .le else .ge) q (.int 0)
  if ← reached missing then pure []
  else
    let id ← a.get "id"
    match ← l.holder? id with
    | none => pure [⟨id, missing⟩]
    | some n =>
      let qty ← Value.arith .sub missing (l.order n).qty
      if ← reached qty then pure [] else pure [⟨id, qty⟩]

def withQuantity (quantity : Value) (a : Action) : Except Fault Action := do
  if (← a.get "action").same (.text "entry") then
    let missing ← match ← a.get "qty" with
      | .absent => pure true
      | q => q.isNaN
    pure (if missing then a.set "qty" quantity else a)
  else pure a

/-- The orders that carry out an action. An entry closes all positions in the other direction first. -/
def ordersFor (l : Ledger) (a : Action) : Except Fault (List Order) := do
  let kind ← a.get "action"
  if kind.same (.text "entry") then
    let long := (← a.get "long").isTrue
    let closing ← l.closeSide (if long then .lt else .gt)
    let opening ← l.openPosition a
    pure (closing ++ opening)
  else if kind.same (.text "close") then l.closeOne (← a.get "id")
  else if kind.same (.text "close_all") then l.closeEach (l.positions.map (·.1))
  else .error (.script (.report ("Invalid strategy action type:  " ++ (Value.dict a).printed)))

def plan (l : Ledger) (quantity : Value) : List Action → List Action × Except Fault (List Order)
  | [] => ([], .ok [])
  | a :: rest =>
    match withQuantity quantity a with
    | .error e => (a :: rest, .error e)
    | .ok a =>
      match l.ordersFor a with
      | .error e => (a :: rest, .error e)
      | .ok orders =>
        let (rest, r) := plan l quantity rest
        (a :: rest, r.map (orders ++ ·))

def enter (o : Order) : LedgerM Nat :=
  modifyGet fun l => (l.orders.size, { l with orders := l.orders.push o })

/-- Adds the order with a number to the position of its name. -/
def apply (n : Nat) : LedgerM Unit := do
  let l ← get
  let o := l.order n
  match ← l.holder? o.id with
  | none => set { l with positions := l.positions ++ [(o.id, n)] }
  | some m =>
    let qty ← Value.arith .add (l.order m).qty o.qty
    if ← Value.holds .eq qty (.int 0) then
      set { l with positions := l.positions.filter fun (_, k) => k != m }
    else set { l with orders := l.orders.setIfInBounds m ⟨(l.order m).id, qty⟩ }

def commit (orders : List Order) : LedgerM (List Nat) := do
  let numbers ← orders.mapM enter
  numbers.forM apply
  modify fun l => { l with history := l.history ++ [numbers] }
  pure numbers

end Ledger

end PineEngine
