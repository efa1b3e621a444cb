import PineEngine.Exchange.Value
import PineEngine.Machine.Run

/-! # Machines for other programs

The state of a machine and of its broker, as JSON.
-/

namespace PineEngine.Exchange

open Script

def nodeName (c : Code) : Json :=
  (c.name?.map Json.str).getD .null

def registerList (m : Machine) : List Register :=
  (m.context.map (·.registers)).getD []

def registers (m : Machine) : Json :=
  .arr ((registerList m).map fun r =>
    .arr [.str r.code.label, nodeName r.code, (r.code.line.map fun (l : Nat) => Json.int l).getD .null,
      value m.store r.value])

def registersAt (m : Machine) (bar : Int) : Json :=
  .arr ((registerList m).map fun r =>
    match r.value with
    | .series s =>
      let c := m.store.column s
      if c.rowLen.isSome then .arr [nodeName r.code, value m.store r.value]
      else
        let entry := match (if 0 ≤ bar then c.get bar else .error .index) with
          | .ok v => value m.store v
          | .error _ => .null
        .arr [nodeName r.code, entry, .int (m.store.valid s)]
    | v => .arr [nodeName r.code, value m.store v])

def order (s : Store) (o : Order) : Json :=
  table s o.toFields

def orders (s : Store) (os : List Order) : Json :=
  .arr (os.map (order s))

def actions (s : Store) (as : List Action) : Json :=
  .arr (as.map (table s))

/-- A broker: what it is to do, what it holds, and how much that is, where `failed` writes a fault. -/
def broker (failed : Fault → Json) (s : Store) (b : Broker) : Json :=
  let positions := match b.book with
    | .ledger l => l.positions.map fun (k, n) => (key k, order s (l.order n))
    | _ => []
  .obj [("actions", actions s b.actions), ("positions", .obj [("map", .obj positions)]),
    ("size", match b.positionSize with
      | .ok v => value s v
      | .error e => failed e)]

def header (m : Machine) : List (String × Json) :=
  [("meta", table m.store m.header), ("title", value m.store m.title), ("overlay", value m.store m.overlay)]

def drawings (m : Machine) : List (String × Json) :=
  if m.mode == .plot then
    [("outputs", .arr (m.outputs.map (table m.store))), ("fills", .arr (m.fills.map (table m.store)))]
  else []

end PineEngine.Exchange
