import PineEngine.Proofs.Judgements

/-! # What leaves the registers alone

Operators, built-in variables and built-in functions compute new values: they add series to the store, give
orders, set the header or collect drawings, but they touch neither the registers nor the bar
(`Machine.Quiet`). The drawings and the inputs of a script are among them. So they respect every relation that allows
for this much (`Machine.Tolerant`).
-/

namespace PineEngine

open Script Builtin Computation Store

def Broker.told (b : Broker) (v : Value) : Prop :=
  ∃ delivered, b.book = .remote v delivered

/-- What a broker was told before it is still told, and nothing else. -/
def Broker.Remembers (b b' : Broker) : Prop :=
  ∀ v, b'.told v ↔ b.told v

instance : Std.Refl Broker.Remembers :=
  ⟨fun _ _ => .rfl⟩

instance : Trans Broker.Remembers Broker.Remembers Broker.Remembers :=
  ⟨fun first second v => (second v).trans (first v)⟩

namespace Broker

theorem addAction_remembers (a : Action) : Obeys Remembers (addAction a) :=
  fun _ _ => .rfl

theorem entry_remembers (kws : Fields) : Obeys Remembers (entry kws) := by
  unfold entry
  simp only [throw_bind]
  split
  · exact .throw _
  · split
    · exact .throw _
    · split
      · exact .throw _
      · exact addAction_remembers _

theorem not_told_of_ledger {b : Broker} {l : Ledger} (book : b.book = .ledger l) (v : Value) : ¬ b.told v := by
  rintro ⟨delivered, told⟩
  cases book.symm.trans told

theorem step_remembers : Obeys Remembers step := by
  intro b
  rw [leaves, step, get_bind]
  split
  next => exact fun v => .rfl
  next size d h =>
    intro v
    constructor
    · rintro ⟨d', told⟩
      cases told
      exact ⟨d, h⟩
    · rintro ⟨d', told⟩
      cases h.symm.trans told
      exact ⟨some b.actions, rfl⟩
  next l h =>
    rcases l.plan b.settings.quantity b.actions with ⟨actions, e | orders⟩
    · exact fun v => .rfl
    · -- A ledger takes the place of a ledger, and no position was told.
      let committed := ((Ledger.commit orders).run).run l
      have settled : leaves (do
          modify fun b => { b with book := Book.ledger committed.2 }
          pure (some (← committed.1)) : BrokerM (Option (List Nat))) { b with actions := [] } =
            { b with actions := [], book := .ledger committed.2 } := by
        cases committed.1 <;> rfl
      have book := congrArg Broker.book settled
      exact fun v => iff_of_false (not_told_of_ledger book v) (not_told_of_ledger h v)

end Broker

namespace Machine

def told (m : Machine) (v : Value) : Prop :=
  ∃ b, m.broker = some b ∧ b.told v

/-- The registers, the bar, the program and the market are as they were, no less than the inputs and the position
    that the broker was told; the store has grown. -/
structure Quiet (m m' : Machine) : Prop where
  context : m'.context = m.context
  store : m.store.Grows m'.store
  inputs : m'.userInputs = m.userInputs
  told : ∀ v, m'.told v ↔ m.told v
  program : m'.program = m.program
  annotations : m'.annotations = m.annotations
  market : m'.market = m.market

instance : Std.Refl Quiet :=
  ⟨fun _ => ⟨rfl, Std.Refl.refl _, rfl, fun _ => .rfl, rfl, rfl, rfl⟩⟩

instance : Trans Quiet Quiet Quiet :=
  ⟨fun first second => ⟨second.context.trans first.context, Trans.trans first.store second.store,
    second.inputs.trans first.inputs, fun v => (second.told v).trans (first.told v),
    second.program.trans first.program, second.annotations.trans first.annotations,
    second.market.trans first.market⟩⟩

/-- Relations that everything built in respects: the store may grow, and the header, the drawings and what the broker
    is about to do may change. -/
class Tolerant (R : Machine → Machine → Prop) : Prop where
  store (m : Machine) {s : Store} (grows : m.store.Grows s) : R m { m with store := s }
  header (m : Machine) (fields : Fields) : R m { m with header := fields }
  outputs (m : Machine) (plots : List Fields) : R m { m with outputs := plots }
  fills (m : Machine) (plots : List Fields) : R m { m with fills := plots }
  broker (m : Machine) {b b' : Broker} (given : m.broker = some b) (same : ∀ v, b'.told v ↔ b.told v) :
    R m { m with broker := some b' }

variable {m : Machine} {α : Type} {x : SeriesM α}

theorem told_broker {b b' : Broker} (h : m.broker = some b) (same : ∀ v, b'.told v ↔ b.told v) (v : Value) :
    told { m with broker := some b' } v ↔ m.told v := by
  constructor
  · rintro ⟨_, ⟨⟩, told⟩
    exact ⟨b, h, (same v).mp told⟩
  · rintro ⟨_, here, told⟩
    cases h.symm.trans here
    exact ⟨_, rfl, (same v).mpr told⟩

instance : Tolerant Quiet where
  store _ _ grows := ⟨rfl, grows, rfl, fun _ => .rfl, rfl, rfl, rfl⟩
  header _ _ := ⟨rfl, Std.Refl.refl _, rfl, fun _ => .rfl, rfl, rfl, rfl⟩
  outputs _ _ := ⟨rfl, Std.Refl.refl _, rfl, fun _ => .rfl, rfl, rfl, rfl⟩
  fills _ _ := ⟨rfl, Std.Refl.refl _, rfl, fun _ => .rfl, rfl, rfl, rfl⟩
  broker _ _ _ h same := ⟨rfl, Std.Refl.refl _, rfl, told_broker h same, rfl, rfl, rfl⟩

variable {R : Machine → Machine → Prop} [Tolerant R]

theorem outcome_onStore (x : SeriesM α) (m : Machine) :
    outcome (onStore x) m = ((outcome x m.store).1, { m with store := (outcome x m.store).2 }) := by
  change outcome (MonadExcept.ofExcept (outcome x m.store).1)
    { m with store := (outcome x m.store).2 } = _
  cases (outcome x m.store).1 <;> rfl

theorem onStore_eq_ok {m' : Machine} {a : α} (h : outcome (onStore x) m = (.ok a, m')) :
    ∃ s', outcome x m.store = (.ok a, s') ∧ m' = { m with store := s' } := by
  rw [outcome_onStore] at h
  obtain ⟨found, rfl⟩ := Prod.mk.inj h
  exact ⟨_, Prod.ext found rfl, rfl⟩

theorem onStore_reads (reads : Obeys Eq x) : Obeys Eq (onStore x) := by
  intro m
  have same : m.store = (outcome x m.store).2 := reads m.store
  rw [leaves, outcome_onStore, ← same]

theorem onStore_quiet (grows : Obeys Grows x) : Obeys R (onStore x) := by
  intro m
  rw [leaves, outcome_onStore]
  exact Tolerant.store m (grows m.store)

theorem lift_reads {e : Except Fault α} : Obeys Eq (liftM e : MachineM α) := by
  cases e <;> exact fun _ => rfl

theorem outcome_liftM (e : Except Fault α) (m : Machine) : outcome (liftM e : MachineM α) m = (e, m) := by
  cases e <;> rfl

theorem modify_outputs_quiet (plot : Fields) :
    Obeys R (modify fun m => { m with outputs := m.outputs ++ [plot] } : MachineM Unit) :=
  fun m => Tolerant.outputs m _

theorem current_reads : Obeys Eq current :=
  .bind .get fun m => by split <;> first | exact .pure _ | exact .throw _

theorem getRegister_reads (code : Code) : Obeys Eq (getRegister code) :=
  .bind current_reads fun _ => .pure _

theorem obeys_readClosed (R : Machine → Machine → Prop) [Std.Refl R] [Trans R R R] :
    ReadClosed fun _ x _ => Obeys R x where
  pure _ := .pure _
  throw e := .throw e
  bind := .bind
  mono judged _ := judged
  get _ rest := .bind .get rest
  tryCatch := .tryCatch
  reads reads := .of_reads (onStore_reads reads)
  current := .of_reads current_reads
  register code := .of_reads (getRegister_reads code)

theorem barCount_reads : Obeys Eq barCount :=
  (obeys_readClosed Eq).barCount []

theorem bar_reads : Obeys Eq bar :=
  (obeys_readClosed Eq).bar []

theorem printedValue_reads (v : Value) : Obeys Eq (printedValue v) :=
  (obeys_readClosed Eq).printedValue [] v

theorem truth_reads (v : Value) : Obeys Eq (truth v) :=
  (obeys_readClosed Eq).truth [] v

theorem now_reads (v : Value) : Obeys Eq (now v) :=
  (obeys_readClosed Eq).now [] v

theorem firstEntry_reads (v : Value) : Obeys Eq (firstEntry v) :=
  (obeys_readClosed Eq).firstEntry [] v

theorem sample_reads (v : Value) : Obeys Eq (sample v) :=
  (obeys_readClosed Eq).sample [] v

theorem startValue_reads (v : Value) : Obeys Eq (startValue v) :=
  (obeys_readClosed Eq).startValue [] v

theorem truth_eq_ok {r : SeriesRef} {t : Bool} {m' : Machine} (h : outcome (truth (.series r)) m = (.ok t, m')) :
    ∃ w, (m.store.column r).cells.toList = [w] ∧ t = w.isTrue := by
  obtain ⟨c, found, counted⟩ := (onStore_reads (SeriesRef.column_reads r)).bind_eq_ok h
  obtain ⟨_, read, _⟩ := onStore_eq_ok found
  cases read
  split at counted
  next w cells => cases counted; exact ⟨w, cells, rfl⟩
  next => cases counted

variable [Std.Refl R]

theorem withBroker_quiet {x : BrokerM Unit} (remembers : Obeys Broker.Remembers x) :
    Obeys R (withBroker x) := by
  intro m
  rw [leaves, withBroker, get_bind]
  split
  next => exact Std.Refl.refl m
  next b h =>
    have after : R m { m with broker := some (leaves x b) } := Tolerant.broker m h (remembers b)
    change R m (leaves (liftM (outcome x b).1 : MachineM Unit) { m with broker := some (leaves x b) })
    rw [← lift_reads (e := (outcome x b).1) { m with broker := some (leaves x b) }]
    exact after

theorem brokerStep_quiet : Obeys R (withBroker (do let _ ← Broker.step)) :=
  withBroker_quiet (.bind Broker.step_remembers fun _ => .pure _)

variable [Trans R R R]

theorem obeys_buildClosed (R : Machine → Machine → Prop) [Tolerant R] [Std.Refl R] [Trans R R R] :
    BuildClosed fun _ x _ => Obeys R x where
  toReadClosed := obeys_readClosed R
  builds builds := onStore_quiet builds.grows
  brings brings := onStore_quiet brings.grows
  grows := onStore_quiet
  header _ m := Tolerant.header m _
  outputs := modify_outputs_quiet
  fills _ m := Tolerant.fills m _
  act a := withBroker_quiet (Broker.addAction_remembers a)
  enter kws := withBroker_quiet (Broker.entry_remembers kws)
  position := .bind .get fun m => by
    split
    · exact .pure _
    · refine .bind (.of_reads lift_reads) fun _ => .bind (.of_reads bar_reads) fun _ => ?_
      split
      · exact .bind (.of_reads barCount_reads) fun _ =>
          .bind (onStore_quiet (SeriesRef.mutable_builds _ _).grows) fun _ => .pure _
      · exact .pure _
  userInput code a typed := .bind .get fun _ => .bind (.of_reads (truth_reads _)) fun _ => by
    split
    · exact .bind ((obeys_readClosed R).inputTitle [] code a) fun _ => .bind (.of_reads lift_reads) fun _ =>
        .bind .get fun _ => typed [] _ _
    · exact .pure _

theorem sourceSeries_quiet (s : Source) (values : List Value) : Obeys R (sourceSeries s values) :=
  (obeys_buildClosed R).sourceSeries [] s values

theorem source_quiet (s : Source) : Obeys R (source s) :=
  (obeys_buildClosed R).source [] s

theorem variableValue_quiet (v : Variable) : Obeys R (variableValue v) :=
  (obeys_buildClosed R).variableValue [] v

theorem call_quiet (code : Code) (name : String) (fn : Function) (args : List Value) (named : Fields) :
    Obeys R (call code name fn args named) :=
  (obeys_buildClosed R).call code name fn args named

theorem compare_quiet (op : CompareOp) (a b : Value) : Obeys R (compare op a b) :=
  (obeys_buildClosed R).compare [] op a b

theorem binary_quiet (op : BinaryOp) (a b : Value) : Obeys R (binary op a b) :=
  (obeys_buildClosed R).binary [] op a b

theorem unary_quiet (op : UnaryOp) (v : Value) : Obeys R (unary op v) :=
  (obeys_buildClosed R).unary [] op v

theorem copied_quiet (n : Nat) (v : Value) : Obeys R (copied n v) :=
  (obeys_buildClosed R).copied [] n v

theorem repeated_quiet (n : Nat) (v : Value) : Obeys R (repeated n v) :=
  (obeys_buildClosed R).repeated [] n v

theorem started_quiet (c : SeriesRef) (v : Value) : Obeys R (started c v) :=
  (obeys_buildClosed R).started [] c v

end Machine

end PineEngine
