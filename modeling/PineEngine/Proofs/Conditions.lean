import PineEngine.Proofs.Backlog
import PineEngine.Proofs.Occurrences

/-! # What counts as a condition

The condition of an order counts unless it is zero, and the one of a choice between blocks only if it is a number as
well. So both agree, but for what is not a number (`order_given_iff`). Of the conditions that `and` or `or` connects, the
first one counts like the former and all others like the latter (`connective_counts`). Brackets around the first of them
make no difference (`connective_flat`).
-/

namespace PineEngine

open Script Computation Builtin

namespace Value

variable {v : Value} {t : Bool}

theorem isTrue_eq_iff (told : v.holds? = some t) : v.isTrue = t ↔ ¬ (v.isTrue ∧ v.isNaN = .ok true) := by
  have asked := Machine.conditionHolds_number told
  rw [Machine.conditionHolds] at asked
  by_cases large : v.tooLarge
  · have same : v.isTrue = t := by
      unfold Value.tooLarge at large
      split at large <;> first | exact Option.some.inj told | cases large
    refine iff_of_true same ?_
    rintro ⟨counts, none⟩
    rw [if_pos large, counts, none] at asked
    cases asked
  · rw [if_neg large] at asked
    cases counts : v.isTrue <;> rw [counts] at asked
    · cases asked
      simp
    · cases none : v.isNaN with
      | error e =>
        rw [none] at asked
        cases asked
      | ok missing =>
        rw [none] at asked
        cases asked
        cases missing <;> simp

end Value

def Builtin.Function.order? : Function → Option (Arguments → BrokerM Unit)
  | .close => some Broker.close
  | .closeAll => some Broker.closeAll
  | .entry => some Broker.entry
  | _ => none

theorem Broker.entry_cases (a : Arguments) (b : Broker) : (∃ e, outcome (Broker.entry a) b = (.error e, b)) ∨
    ∃ action, outcome (Broker.entry a) b = (.ok (), { b with actions := b.actions ++ [action] }) := by
  unfold Broker.entry
  simp only [throw_bind]
  split
  · exact .inl ⟨_, rfl⟩
  · split
    · exact .inl ⟨_, rfl⟩
    · split
      · exact .inl ⟨_, rfl⟩
      · exact .inr ⟨_, rfl⟩

theorem Broker.order_adds {fn : Function} {order : Arguments → BrokerM Unit} (orders : fn.order? = some order) {a : Arguments}
    {b b' : Broker} (accepted : outcome (order a) b = (.ok (), b')) :
    ∃ action, b' = { b with actions := b.actions ++ [action] } := by
  unfold Function.order? at orders
  split at orders <;> cases orders
  · cases accepted
    exact ⟨_, rfl⟩
  · cases accepted
    exact ⟨_, rfl⟩
  · obtain ⟨e, failed⟩ | ⟨action, added⟩ := entry_cases a b
    · cases failed.symm.trans accepted
    · cases added.symm.trans accepted
      exact ⟨action, rfl⟩

namespace Machine

variable {m : Machine} {bar : Nat} {cond : Value} {t : Bool}

theorem now_holds (now : m.barNow = some (bar : Int)) (told : m.store.holdsAt? bar cond = some t) :
    ∃ v, outcome (Machine.now cond) m = (.ok v, m) ∧ v.holds? = some t ∧ (cond.tooLarge → v = cond) := by
  cases cond with
  | series r =>
    obtain ⟨a, got, told⟩ := Store.entry_of_holdsAt told
    refine ⟨.cell a, ?_, told, by simp [Value.tooLarge]⟩
    rw [Machine.now, bind_ok (outcome_bar now), outcome_onStore, SeriesRef.outcome_get, got]
  | _ => exact ⟨_, rfl, told, fun _ => rfl⟩

theorem outcome_isDue {a : Arguments} {v : Value} (asked : a.value "when" = cond) (h : cond ≠ .absent)
    (read : outcome (Machine.now cond) m = (.ok v, m)) (told : v.holds? = some t) :
    outcome (isDue a) m = (.ok v.isTrue, m) := by
  have truth : SeriesRef.entryTruth v = .ok v.isTrue := by
    cases v <;> first | rfl | cases told
  have asks : isDue a = (do pure (← SeriesRef.entryTruth (← Machine.now cond))) := by
    rw [isDue, asked]
    cases cond <;> first | rfl | exact (h rfl).elim
  rw [asks, bind_ok read, truth]
  rfl

/-- A call with a condition that is a truth value or a number, or a series of such. The order is given if the condition
    is not zero at the bar. A choice between blocks takes its first block just then, unless the condition is not a number
    or an integer beyond all doubles. -/
theorem order_given_iff {fn : Function} {order : Arguments → BrokerM Unit} {args : List Value} {named : Fields}
    {a : Arguments} {b b' : Broker} (orders : fn.order? = some order)
    (bound : fn.signature.bind (typeName m.store) args named = .ok a) (asked : a.value "when" = cond)
    (now : m.barNow = some (bar : Int)) (told : m.store.holdsAt? bar cond = some t) (broker : m.broker = some b)
    (accepted : outcome (order a) b = (.ok (), b')) :
    (∃ action, b' = { b with actions := b.actions ++ [action] }) ∧
    ∃ v, outcome (Machine.now cond) m = (.ok v, m) ∧
      outcome (apply fn args named) m = (.ok .absent, if v.isTrue then { m with broker := some b' } else m) ∧
      (∀ scope line id c y e m₀, outcome (eval scope c) m₀ = (.ok cond, m) →
        outcome (eval scope (.choice line id c y e false)) m₀ =
          if cond.tooLarge then (.error .overflow, m)
          else outcome (do
            let v ← branch t (eval scope y) (e.elim (pure .absent) (eval scope))
            settle scope (.choice line id c y e false) cond ((m.holds (some id)).getD .absent) v) m) ∧
      (v.isTrue = (t && !cond.tooLarge) ↔ ¬ (v.isTrue ∧ v.isNaN = .ok true) ∧ ¬ cond.tooLarge) := by
  obtain ⟨v, read, held, large⟩ := now_holds now told
  have given : cond ≠ .absent := by
    rintro rfl
    cases told
  have due := outcome_isDue asked given read held
  have bound : outcome (Machine.bind fn.signature args named) m = (.ok a, m) := by rw [outcome_arguments, bound]
  have placed : outcome (do
      if ← isDue a then withBroker (order a)
      pure .absent : MachineM Value) m = (.ok .absent, if v.isTrue then { m with broker := some b' } else m) := by
    rw [bind_ok due]
    cases v.isTrue with
    | false => rfl
    | true =>
      have sent : outcome (withBroker (order a)) m = (.ok (), { m with broker := some b' }) := by
        rw [outcome_withBroker, broker]
        simp only [accepted]
      exact bind_ok sent
  refine ⟨Broker.order_adds orders accepted, v, read, ?_, fun scope line id c y e m₀ asked => ?_, ?_⟩
  · unfold Function.order? at orders
    split at orders <;> cases orders
    · exact (bind_ok bound).trans placed
    · exact (bind_ok bound).trans placed
    · have connected : m.broker.isSome := by rw [broker]; rfl
      rw [apply, get_bind, if_pos connected]
      exact (bind_ok bound).trans placed
  · rw [choice_enters asked]
    exact choose_runs now told _ _
  · cases huge : cond.tooLarge with
    | false => simpa using Value.isTrue_eq_iff held
    | true =>
      obtain rfl := large huge
      have counts : v.isTrue := by
        have asked := conditionHolds_number held
        by_contra zero
        rw [if_pos huge, conditionHolds, if_neg zero] at asked
        cases asked
      simp [counts]

def trading : Machine :=
  { new .plain {} with context := some { timestamps := ⟨0⟩ }, broker := some .simulated }

theorem order_given_iff_true : ∃ action, outcome (apply .closeAll [.bool true] []) trading =
    (.ok .absent, { trading with broker := some { Broker.simulated with actions := [action] } }) := by
  obtain ⟨⟨action, added⟩, v, read, placed, _⟩ := order_given_iff
    (show Function.closeAll.order? = some Broker.closeAll from rfl)
    (show Function.closeAll.signature.bind (typeName trading.store) [.bool true] [] = .ok [("when", .bool true)] from rfl)
    rfl (show trading.barNow = some ((0 : Nat) : Int) from rfl) rfl rfl rfl
  cases read
  exact ⟨action, by rw [placed, added]; rfl⟩

/-- With what is not a number an order is given, and no block runs. -/
theorem missing_number_gives_order :
    (outcome (apply .closeAll [.float notANumber] []) trading).2.broker.map (·.actions.length) = some 1 ∧
    ∀ (scope : Scope) (line : Line) (id : Nat) (y : Code),
      outcome (eval scope (.choice line id (.literal line (.float notANumber)) y none false)) trading =
        (.ok .absent, trading) := by
  refine ⟨by decide +kernel, fun scope line id y => ?_⟩
  have told : (Value.float notANumber).holds? = some false := by decide +kernel
  have asked : outcome (eval scope (.literal line (.float notANumber))) trading = (.ok (.float notANumber), trading) := by
    rfl
  rfl

end Machine

namespace Column

variable {n : Nat} {a b c : Column} {isAnd : Bool}

def countsAt (c : Column) (i : Nat) : Bool :=
  ((Operand.column c).cellAt i).isTrue

def heldAt (c : Column) (i : Nat) : Bool :=
  ((Operand.column c).cellAt i).holds? == some true

/-- A column of `n` truth values or numbers. -/
structure Condition (n : Nat) (c : Column) : Prop extends Flat n c where
  plain : c.cells.kind.Plain

theorem finite_countsAt (plain : c.cells.kind.Plain) (i : Nat) : c.finite.countsAt i = c.heldAt i := by
  have told (b : Bool) : b = (some b == some true) := by cases b <;> rfl
  obtain ⟨cells, rows⟩ := c
  unfold countsAt heldAt finite Operand.cellAt
  cases cells with
  | texts | objects => obtain same | same | same := plain <;> cases same
  | bools xs =>
    dsimp only [Cells.get?]
    cases xs[i]? with
    | none => rfl
    | some b => exact told b
  | ints w xs =>
    dsimp only [Cells.get?]
    cases xs[i]? with
    | none => rfl
    | some n => exact told (n != 0)
  | floats xs =>
    dsimp only [Cells.get?]
    rw [Array.getElem?_map]
    cases xs[i]? with
    | none => rfl
    | some x => exact (finiteFloat_holds x).trans (told _)

theorem finite_shape (c : Column) : c.finite.cells.kind = c.cells.kind ∧ c.finite.cells.size = c.cells.size ∧
    c.finite.rowLen = c.rowLen := by
  obtain ⟨cells, rows⟩ := c
  cases cells <;> simp [finite, Cells.kind, Cells.size]

theorem Condition.logic (first : a.Condition n) (second : b.Condition n) (isAnd : Bool) :
    Column.logic isAnd (.column a.finite) (.column b) = .ok ⟨.bools ((List.range n).map fun i =>
      if isAnd then a.heldAt i && b.countsAt i else a.heldAt i || b.countsAt i).toArray, none⟩ := by
  obtain ⟨kind, size, rows⟩ := finite_shape a
  have flat : (Operand.column a.finite).Flat n := ⟨rows.trans first.rows, size.trans first.size⟩
  rw [Column.logic, Operand.pairs_flat flat (b := .column b) second.toFlat rfl]
  have machine {k : Kind} (plain : k.Plain) : k ≠ .object := by
    rintro rfl
    simp [Kind.Plain] at plain
  dsimp only [bind, Except.bind]
  split
  next object => exact (machine first.plain (kind.symm.trans (Side.kind.inj object))).elim
  next object _ => exact (machine second.plain (Side.kind.inj object)).elim
  next =>
    rw [List.map_map]
    simp only [← finite_countsAt first.plain]
    rfl

end Column

namespace Machine

variable {n : Nat} {scope : Scope} {m m' : Machine} {r : SeriesRef} {c : Column}

structure Shows (m : Machine) (r : SeriesRef) (c : Column) : Prop where
  present : r.id < m.store.series.size
  inside : (m.store.head r).column < m.store.columns.size
  column : m.store.column r = c

theorem Shows.grows (shows : m.Shows r c) (grows : m.store.Grows m'.store) : m'.Shows r c where
  present := grows.series.lt shows.present
  inside := by
    rw [grows.head_eq shows.present]
    exact grows.columns.lt shows.inside
  column := by rw [grows.column_eq shows.present shows.inside, shows.column]

/-- Code that yields a series with a column, now and whenever there are more series. -/
def Supplies (scope : Scope) (m : Machine) (code : Code) (c : Column) : Prop :=
  ∀ m', m.store.Grows m'.store → ∃ r m'', outcome (eval scope code) m' = (.ok (.series r), m'') ∧
    m'.store.Grows m''.store ∧ m''.Shows r c

theorem logic_shows {q : SeriesRef} {d : Column} (isAnd : Bool) (first : m.Shows r c) (second : m.Shows q d)
    (condC : c.Condition n) (condD : d.Condition n) (pos : 1 ≤ n) : ∃ p m',
      outcome (onStore (r.logic isAnd (.series q))) m = (.ok p, m') ∧ m.store.Grows m'.store ∧ ∃ e,
        m'.Shows p e ∧ e.Condition n ∧ ∀ i < n, e.countsAt i =
          if isAnd then c.heldAt i && d.countsAt i else c.heldAt i || d.countsAt i := by
  have finite : SeriesRef.finiteIfFloat c = .ok c.finite := by
    rw [SeriesRef.finiteIfFloat, condC.length, if_neg (by simp; omega)]
  have operand : outcome (SeriesRef.operand (.series q)) m.store = (.ok (.column d), m.store) := by
    rw [← second.column]
    rfl
  obtain ⟨e, same⟩ : ∃ e : Column, e = ⟨.bools ((List.range n).map fun i =>
    if isAnd then c.heldAt i && d.countsAt i else c.heldAt i || d.countsAt i).toArray, none⟩ := ⟨_, rfl⟩
  have computed := condC.logic condD isAnd
  rw [← same] at computed
  obtain ⟨valid, origin, made⟩ : ∃ valid origin, outcome (r.logic isAnd (.series q)) m.store =
      (.ok ⟨m.store.series.size⟩, (m.store.alloc e valid origin).2) := by
    refine ⟨min (m.store.valid r) (m.store.valid q), (m.store.head r).origin.derived, ?_⟩
    rw [SeriesRef.logic, bind_ok (SeriesRef.outcome_column r _), first.column, finite,
      bind_ok (SeriesRef.outcome_lift ..), bind_ok operand, computed,
      bind_ok (SeriesRef.outcome_lift ..)]
    rfl
  have added := Store.alloc_added (Std.Refl.refl m.store) e valid origin
  have here : (m.store.alloc e valid origin).2.column ⟨m.store.series.size⟩ = e := Store.column_alloc ..
  refine ⟨⟨m.store.series.size⟩, { m with store := (m.store.alloc e valid origin).2 },
    by rw [outcome_onStore, made], added.grows, e,
    ⟨added.present, added.inside, here⟩, same ▸ ⟨⟨rfl, by simp [Cells.size]⟩, .inl rfl⟩, fun i low => ?_⟩
  have entry : e.cells.get? i =
      some (.cell (.bool (if isAnd then c.heldAt i && d.countsAt i else c.heldAt i || d.countsAt i))) := by
    simp only [same, Cells.get?, List.getElem?_toArray, List.getElem?_map, List.getElem?_range low, Option.map_some]
  rw [Column.countsAt, Operand.cellAt, entry]
  rfl

theorem connected_counts (isAnd : Bool) (pos : 1 ≤ n) {codes : List Code} {cs : List Column}
    (supply : List.Forall₂ (Supplies scope m) codes cs) (conds : ∀ c ∈ cs, c.Condition n) (grows : m.store.Grows m'.store)
    (shows : m'.Shows r c) (cond : c.Condition n) : ∃ q m'' e,
      outcome (evalConnected isAnd scope (some r) codes) m' = (.ok (.series q), m'') ∧ m''.Shows q e ∧ e.Condition n ∧
        ∀ i < n, e.countsAt i =
          if isAnd then c.countsAt i && cs.all (·.heldAt i) else c.countsAt i || cs.any (·.heldAt i) := by
  induction supply generalizing m' r c with
  | nil =>
    refine ⟨r, m', c, ?_, shows, cond, fun i _ => by simp⟩
    cases isAnd <;> rfl
  | @cons code d codes cs first rest ih =>
    obtain ⟨p, m₁, ran, more, here⟩ := first m' grows
    obtain ⟨q, m₂, joined, further, e, there, cond', entries⟩ := logic_shows isAnd here (shows.grows more)
      (conds d (.head _)) cond pos
    obtain ⟨last, m₃, e', done, shown, cond'', counts⟩ := ih (fun c mem => conds c (.tail _ mem))
      (Trans.trans (Trans.trans grows more) further) there cond'
    refine ⟨last, m₃, e', ?_, shown, cond'', fun i low => ?_⟩
    · rw [evalConnected_cons, bind_ok ran, connect]
      exact (bind_ok joined).trans done
    · rw [counts i low, entries i low]
      rw [List.all_cons, List.any_cons]
      cases isAnd <;> cases d.heldAt i <;> cases c.countsAt i <;> rfl

def connective (isAnd : Bool) (line : Line) (codes : List Code) : Code :=
  if isAnd then .allOf line codes else .anyOf line codes

/-- Conditions that are series of truth values or numbers, connected by `or`, or by `and`. At each bar the first one
    counts unless it is zero, and each other one if it is a number as well. So the outcome is whether one, or each, of them
    is a number other than zero, but for bars where the first one is not a number and all others leave it open. -/
theorem connective_counts (isAnd : Bool) (line : Line) {code : Code} {codes : List Code} {first : Column}
    {cs : List Column} (positive : 1 ≤ n) (supply : List.Forall₂ (Supplies scope m) (code :: codes) (first :: cs))
    (conds : ∀ c ∈ first :: cs, c.Condition n) :
    ∃ r m' e, outcome (eval scope (connective isAnd line (code :: codes))) m = (.ok (.series r), m') ∧
      m'.store.column r = e ∧ e.Condition n ∧ ∀ i < n,
        (e.countsAt i =
          if isAnd then first.countsAt i && cs.all (·.heldAt i) else first.countsAt i || cs.any (·.heldAt i)) ∧
        ((e.countsAt i = if isAnd then (first :: cs).all (·.heldAt i) else (first :: cs).any (·.heldAt i)) ↔
          first.countsAt i = first.heldAt i ∨ ∃ c ∈ cs, c.heldAt i = !isAnd) := by
  cases supply with
  | cons supply rest =>
    obtain ⟨r, m₁, ran, grows, shows⟩ := supply m (Std.Refl.refl m.store)
    obtain ⟨q, m₂, e, done, shown, cond, counts⟩ := connected_counts isAnd positive rest
      (fun c among => conds c (List.mem_cons_of_mem _ among)) grows shows (conds first (List.mem_cons_self ..))
    refine ⟨q, m₂, e, ?_, shown.column, cond, fun i low => ⟨counts i low, ?_⟩⟩
    · have entered : eval scope (connective isAnd line (code :: codes)) =
          evalConnected isAnd scope none (code :: codes) := by
        cases isAnd with
        | true =>
          rfl
        | false =>
          rfl
      rw [entered, evalConnected_cons, bind_ok ran]
      exact done
    · have decided : (∃ c ∈ cs, c.heldAt i = !isAnd) ↔
          (if isAnd then !cs.all (·.heldAt i) else cs.any (·.heldAt i)) = true := by
        cases isAnd <;> simp
      rw [counts i low, List.all_cons, List.any_cons, decided]
      cases isAnd <;> cases first.countsAt i <;> cases first.heldAt i <;> simp

theorem literal_supplies (shows : m.Shows r c) (line : Line) : Supplies scope m (.literal line (.series r)) c :=
  fun m' grows => ⟨r, m', by rw [eval]; rfl, Std.Refl.refl _, shows.grows grows⟩

/-- A machine with a series that is not a number at its only bar, and one that does not hold there. -/
def doubtful : Machine :=
  let numbers := (({} : Store).alloc ⟨.floats #[notANumber], none⟩ 0 .plain).2
  { new .plain {} with store := (numbers.alloc ⟨.bools #[false], none⟩ 0 .plain).2 }

/-- Whether one of two series of `doubtful` holds. -/
def either (r q : SeriesRef) : Except Fault Value × Machine :=
  outcome (eval { mutable := [] } (connective false none [.literal none (.series r), .literal none (.series q)])) doubtful

theorem connective_counts_doubtful : ∃ r m' e, either ⟨1⟩ ⟨0⟩ = (.ok (.series r), m') ∧ m'.store.column r = e ∧
    e.countsAt 0 = false := by
  have first : doubtful.Shows ⟨1⟩ ⟨.bools #[false], none⟩ := ⟨by decide, by decide, rfl⟩
  have second : doubtful.Shows ⟨0⟩ ⟨.floats #[notANumber], none⟩ := ⟨by decide, by decide, rfl⟩
  obtain ⟨r, m', e, ran, column, _, counts⟩ := connective_counts false none (Nat.le_refl 1)
    (.cons (literal_supplies first none) (.cons (literal_supplies second none) .nil))
    (List.forall_mem_cons.mpr ⟨⟨⟨rfl, rfl⟩, .inl rfl⟩, List.forall_mem_singleton.mpr ⟨⟨rfl, rfl⟩, .inr (.inr rfl)⟩⟩)
  exact ⟨r, m', e, ran, column, (counts 0 Nat.one_pos).1.trans (by decide +kernel)⟩

/-- The same two conditions count the one way round, and do not count the other way round. -/
theorem first_missing_number_counts : ((either ⟨0⟩ ⟨1⟩).2.store.column ⟨2⟩).countsAt 0 = true ∧
    ((either ⟨1⟩ ⟨0⟩).2.store.column ⟨2⟩).countsAt 0 = false := by
  decide +kernel

theorem evalConnected_append (isAnd : Bool) (found : Option SeriesRef) (xs ys : List Code) :
    evalConnected isAnd scope found (xs ++ ys) =
      evalConnected isAnd scope found xs >>= connect isAnd (evalConnected isAnd scope · ys) none := by
  induction xs generalizing found with
  | nil => cases isAnd <;> cases found <;> rfl
  | cons c xs ih =>
    rw [List.cons_append, evalConnected_cons, evalConnected_cons, bind_assoc]
    refine congrArg (eval scope c >>= ·) (funext fun v => ?_)
    have single (other : ∀ r, v ≠ .series r) (more : Option SeriesRef → MachineM Value) (found : Option SeriesRef) :
        connect isAnd more found v = if v.isTrue == isAnd then more found else pure v := by
      cases v with
      | series r => exact absurd rfl (other r)
      | _ => rfl
    -- A value that is no series is the answer of both, or of neither.
    have goesOn (other : ∀ r, v ≠ .series r) : connect isAnd (evalConnected isAnd scope · (xs ++ ys)) found v =
        connect isAnd (evalConnected isAnd scope · xs) found v >>= connect isAnd (evalConnected isAnd scope · ys) none := by
      rw [single other, single other]
      split
      next => exact ih found
      next answered => rw [pure_bind, single other, if_neg answered]
    cases v with
    | series r =>
      cases found with
      | none => exact ih (some r)
      | some s => simp only [connect, ih, bind_assoc]
    | _ => exact goesOn fun _ => Value.noConfusion

theorem eval_connective (isAnd : Bool) (line : Line) (codes : List Code) :
    eval scope (connective isAnd line codes) = evalConnected isAnd scope none codes := by
  cases isAnd <;> rfl

/-- Conditions in brackets, first among others of the same connective, may be put among these: the result or the fault
    is the same, and so is the machine that is left. -/
theorem connective_flat (isAnd : Bool) (scope : Scope) (line line' : Line) (xs ys : List Code) :
    eval scope (connective isAnd line (connective isAnd line' xs :: ys)) =
      eval scope (connective isAnd line (xs ++ ys)) := by
  rw [eval_connective, eval_connective, evalConnected_cons, eval_connective, evalConnected_append]

end Machine

end PineEngine
