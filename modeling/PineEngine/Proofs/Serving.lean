import PineEngine.Machine.Session
import PineEngine.Proofs.Evaluating

/-! # Sessions

A machine that serves a market is prepared with a script, booted on the candles so far, told what is held and moved
on candle by candle (`Machine.Session`). Whatever becomes of the script on the way, such a machine is sound, its
program is the one it was prepared with, and every series has a column of its own (`Session.fit`).

Making room for a new entry keeps the length of a series, and so does all that follows (`stepNew_runs`): the
columns of a session have the length that they were made with.
-/

namespace PineEngine

open Script Builtin Computation Store SeriesRef

theorem Column.length_advance (c : Column) : c.advance.length = c.length := by
  refine Column.length_eq rfl ?_
  cases c with
  | mk cells rowLen => cases cells <;> simp [advance, Column.size, Cells.rearrange, Cells.size]

namespace Store

variable {apart : Nat → Prop} {r : SeriesRef}

theorem step_writes (v : Option Value) : Obeys (Writes apart r) (r.step v) := by
  have moved : Obeys (Writes apart r) (modify fun s => s.setColumn r (s.column r).advance : SeriesM Unit) :=
    fun s opens => opens.setColumn_spares (Column.length_advance _)
  have back : Obeys (Writes apart r) (SeriesRef.step.back r) :=
    .bind (.of_reads (default_reads r)) fun _ => .bind (set_writes _ _) fun _ =>
      .bind (.of_reads (valid_reads r)) fun _ => setValid_writes _
  refine .bind moved fun _ => .bind (.of_reads (default_reads r)) fun _ => .bind (set_writes _ _) fun _ => ?_
  split
  · split
    · exact .bind (set_writes _ _) fun _ => .pure _
    · exact .bind back fun _ => .pure _
  · exact .bind back fun _ => .pure _

end Store

namespace Machine

variable {apart : Nat → Prop} {given : List Value} {α β : Type} {x : MachineM α} {m' : Machine} {p : Program}

theorem sourceAt_reads (s : Source) : Obeys Eq (sourceAt s (.int 1)) := by
  refine .bind .get fun m => ?_
  rw [if_pos (show (Value.int 1).isTrue = true from rfl)]
  split
  · exact lift_reads
  · exact .bind lift_reads fun _ => .bind lift_reads fun _ => .bind lift_reads fun _ => lift_reads
  · exact .throw _

theorem stepSeries_keeps (r : SeriesRef) : Keeps apart (.series r :: given) (stepSeries r) fun _ => [] := by
  have stepped (v : Option Value) :
      Keeps apart (.series r :: given) (do let _ ← onStore (r.step v)) fun _ => [] :=
    .bind (onStore_writes (step_writes v)) fun _ => .of_reads (.pure _)
  refine .bind (.of_reads (onStore_reads (origin_reads r))) fun origin => ?_
  split
  · exact stepped none
  · exact .throw _
  · exact .bind (.of_reads (sourceAt_reads _)) fun v => stepped (some v)

def stepHeld (x : Register) : MachineM Unit := do
  if let .series r := x.value then stepSeries r

theorem stepHeld_keeps (rs : List Register) : Keeps apart (rs.map (·.value)) (rs.forM stepHeld) fun _ => [] := by
  induction rs with
  | nil => exact .of_reads (.pure _)
  | cons x rs ih =>
    have first : Keeps apart ((x :: rs).map (·.value)) (stepHeld x) fun _ => [] := by
      obtain ⟨code, v⟩ := x
      cases v with
      | series r => exact stepSeries_keeps r
      | _ => exact .of_reads (.pure _)
    exact .bind first fun _ => ih.more

theorem drawOrders_quiet (steps : List (List Order)) : Obeys Quiet (drawOrders steps) := by
  refine .bind (source_quiet .close) fun closing => ?_
  split
  · refine .bind (.of_reads (onStore_reads (column_reads _))) fun c => ?_
    refine .bind (.mapM (fun _ => .bind (.of_reads lift_reads) fun _ => .pure _) _) fun marks => ?_
    dsimp only
    split
    · refine .bind (modify_outputs_quiet _) fun _ => ?_
      split
      · exact modify_outputs_quiet _
      · exact .pure _
    · split
      · exact modify_outputs_quiet _
      · exact .pure _
  · exact .pure _

/-- Evaluates the script at the current bar; gives the actions of the broker. -/
def act : MachineM (List Action) := do
  step
  match (← get).broker with
  | some b => b.delivered
  | none => throw .member

section Steps

variable {R : Machine → Machine → Prop} [Std.Refl R] [Trans R R R]

theorem runTo_obeys (steps : Obeys R step) (last : Int) (fuel : Nat) : Obeys R (runTo last fuel) := by
  induction fuel with
  | zero => exact .pure _
  | succ fuel ih =>
    refine .bind (.of_reads bar_reads) fun bar => ?_
    split
    · exact .bind steps fun _ => ih
    · exact .pure _

theorem run_obeys (steps : Obeys R step) (quiet : ∀ {m m'}, Quiet m m' → R m m') : Obeys R run := by
  refine .bind (.bind (.of_reads barCount_reads) fun n => .bind (.of_reads bar_reads) fun bar => runTo_obeys steps _ _)
    fun _ => ?_
  refine .bind .get fun m => ?_
  split
  · exact fun m => quiet (drawOrders_quiet _ m)
  · exact .pure _

theorem act_obeys (steps : Obeys R step) : Obeys R act := by
  refine .bind steps fun _ => .bind .get fun m => ?_
  split
  · exact .of_reads lift_reads
  · exact .throw _

end Steps

def Runs (apart : Nat → Prop) (m m' : Machine) : Prop :=
  m.Sound apart → m.program.code.closed → m.annotations.Closed → m.Follows apart m'

instance : Std.Refl (Runs apart) :=
  ⟨fun _ sound _ _ => .refl sound⟩

instance : Trans (Runs apart) (Runs apart) (Runs apart) := by
  refine ⟨fun {m m' m''} first second sound closed noted => ?_⟩
  have follows := first sound closed noted
  exact follows.trans (second follows.sound (follows.program ▸ closed) (follows.annotations ▸ noted))

theorem Keeps.runs {gives : α → List Value} (keeps : Keeps apart [] x gives) : Obeys (Runs apart) x :=
  fun _ sound _ _ => keeps.follows sound

theorem step_runs : Obeys (Runs apart) step :=
  fun _ sound closed _ => step_follows sound closed

theorem run_runs : Obeys (Runs apart) run :=
  run_obeys step_runs fun quiet sound _ _ => quiet.follows sound

theorem scanMarkets_runs : Obeys (Runs apart) scanMarkets := by
  intro m sound closed noted
  have asked (cs : List Code) (closed : ∀ c ∈ cs, c.closed) : Keeps apart [] (cs.forM fun c => do
      let _ ← eval { mutable := m.program.mutable } c) fun _ => [] := by
    induction cs with
    | nil => exact .of_reads (.pure _)
    | cons c cs ih =>
      have first : Keeps apart [] (do let _ ← eval { mutable := m.program.mutable } c) fun _ => [] :=
        .bind (eval_keeps _ _ c (closed c (.head _))) fun _ => .of_reads (.pure _)
      exact .bind first fun _ => ih fun c' mem => closed c' (.tail _ mem)
  exact (Keeps.bind (asked _ noted.securities) fun _ => reset_keeps).follows sound

/-- Makes room in every series that is held, and goes to the last bar but one. -/
def makeRoom (c : Context) : MachineM Unit := do
  c.registers.forM stepHeld
  stepSeries c.timestamps
  let n ← barCount
  modifyContext fun c => { c with bar := n - 2 }

theorem stepNew_eq : stepNew = (do
    let c ← current
    makeRoom c
    act) := by
  simp only [stepNew, makeRoom, bind_assoc]
  rfl

theorem makeRoom_keeps (c : Context) :
    Keeps apart (.series c.timestamps :: c.registers.map (·.value)) (makeRoom c) fun _ => [] :=
  .bind (stepHeld_keeps c.registers).more fun _ => .bind (stepSeries_keeps _) fun _ =>
    .bind (.of_reads barCount_reads) fun n => modifyBar_keeps fun _ => n - 2

variable {m : Machine} {holdings : Fields}

theorem Sound.opens {c : Context} (sound : m.Sound apart) (running : m.context = some c) (r : SeriesRef)
    (mem : .series r ∈ .series c.timestamps :: c.registers.map (·.value)) : m.store.Open apart r := by
  rcases List.mem_cons.mp mem with same | held
  · cases same
    exact sound.times c running
  · obtain ⟨x, member, value⟩ := List.mem_map.mp held
    exact sound.held c running x member r value

theorem makeRoom_runs {α : Type} {work : MachineM α} (runs : Obeys (Runs apart) work) :
    Obeys (Runs apart) (do makeRoom (← current); work) := by
  intro m
  cases running : m.context with
  | none =>
    rw [leaves, bind_error (outcome_current_none running)]
    exact Std.Refl.refl m
  | some c =>
    have moved : Runs apart m (leaves (makeRoom c) m) := fun sound _ _ =>
      (makeRoom_keeps c m sound (sound.opens running)).1
    rw [leaves, bind_ok (outcome_current running)]
    exact leaves_bind moved fun _ m' _ moved => Trans.trans moved (runs m')

theorem stepNew_runs : Obeys (Runs apart) stepNew := by
  rw [stepNew_eq]
  exact makeRoom_runs (act_obeys step_runs)

/-- The program and the times of the bars are the same, if the program is numbered. -/
def KeepsTimes (nodes : List Code) (m m' : Machine) : Prop :=
  m.program.code.fits nodes → m'.program = m.program ∧ m'.timesNow = m.timesNow

section KeepsTimes

variable {nodes : List Code}

instance : Std.Refl (KeepsTimes nodes) :=
  ⟨fun _ _ => ⟨rfl, rfl⟩⟩

instance : Trans (KeepsTimes nodes) (KeepsTimes nodes) (KeepsTimes nodes) := by
  refine ⟨fun first second fit => ?_⟩
  obtain ⟨program, times⟩ := first fit
  obtain ⟨program', times'⟩ := second (program ▸ fit)
  exact ⟨program'.trans program, times'.trans times⟩

theorem times_of_quiet (quiet : m.Quiet m') : KeepsTimes nodes m m' := by
  refine fun _ => ⟨quiet.program, ?_⟩
  rw [timesNow, quiet.context, timesNow]

theorem onStore_times (x : SeriesM α) : Obeys (KeepsTimes nodes) (onStore x) := by
  intro m _
  rw [leaves, outcome_onStore]
  exact ⟨rfl, rfl⟩

theorem modifyBar_times (f : Int → Int) :
    Obeys (KeepsTimes nodes) (modifyContext fun c => { c with bar := f c.bar }) := by
  intro m _
  rw [leaves_modifyContext]
  exact ⟨rfl, Option.map_map ..⟩

theorem stepSeries_times (r : SeriesRef) : Obeys (KeepsTimes nodes) (stepSeries r) := by
  refine .bind (onStore_times _) fun origin => ?_
  split
  · exact .bind (onStore_times _) fun _ => .pure _
  · exact .throw _
  · exact .bind (.of_reads (sourceAt_reads _)) fun v => .bind (onStore_times _) fun _ => .pure _

theorem stepHeld_times (x : Register) : Obeys (KeepsTimes nodes) (stepHeld x) := by
  unfold stepHeld
  split
  · exact stepSeries_times _
  · exact .pure _

theorem makeRoom_times (c : Context) : Obeys (KeepsTimes nodes) (makeRoom c) :=
  .bind (.forM stepHeld_times _) fun _ => .bind (stepSeries_times _) fun _ =>
    .bind (.of_reads barCount_reads) fun n => modifyBar_times fun _ => n - 2

theorem step_times : Obeys (KeepsTimes nodes) step := by
  intro m fit
  have evaluated : Obeys (KeepsTimes nodes) (eval { mutable := m.program.mutable } m.program.code) := by
    intro m' _
    have leaves := eval_leaves { mutable := m.program.mutable } nodes _ fit m'
    exact ⟨leaves.program, leaves.times⟩
  have works : Obeys (KeepsTimes nodes) (work m.program) :=
    .bind evaluated fun _ m => times_of_quiet (brokerStep_quiet m)
  rw [leaves, outcome_step]
  exact works.bind (fun _ => modifyBar_times (· + 1)) m fit

theorem run_times : Obeys (KeepsTimes nodes) run :=
  run_obeys step_times times_of_quiet

theorem stepNew_times : Obeys (KeepsTimes nodes) stepNew := by
  rw [stepNew_eq]
  exact .bind (.of_reads current_reads) fun c => .bind (makeRoom_times c) fun _ => act_obeys step_times

end KeepsTimes

theorem outcome_onMarket (x : MarketM Unit) (m : Machine) :
    outcome (onMarket x) m = ((outcome x m.market).1, { m with market := (outcome x m.market).2 }) := by
  change outcome (MonadExcept.ofExcept (outcome x m.market).1) { m with market := (outcome x m.market).2 } = _
  cases (outcome x m.market).1 <;> rfl

/-- A machine whose broker is told the position from outside. -/
def Connected (m : Machine) : Prop :=
  ∃ v, m.told v

theorem outcome_tell (connected : m.Connected) {size : Value} (h : holdings.get "position_size" = .ok size) :
    ∃ b, b.told size ∧ outcome (withBroker (Broker.update holdings)) m = (.ok (), { m with broker := some b }) := by
  obtain ⟨v, b, broker, d, book⟩ := connected
  refine ⟨{ b with book := .remote size d }, ⟨d, rfl⟩, ?_⟩
  have told : outcome (Broker.update holdings) b = (.ok (), { b with book := .remote size d }) := by
    simp only [Broker.update, get_bind, book, h]
    rfl
  have told : (Broker.update holdings).run.run b = (.ok (), { b with book := .remote size d }) := told
  rw [withBroker, get_bind, broker]
  simp only [told]
  rfl

theorem told_update {b : Broker} {v : Value} (told : (leaves (Broker.update holdings) b).told v) :
    b.told v ∨ holdings.get "position_size" = .ok v := by
  rw [leaves, Broker.update, get_bind] at told
  cases book : b.book with
  | remote old d =>
    rw [book] at told
    cases h : holdings.get "position_size" with
    | error e =>
      rw [h] at told
      exact .inl told
    | ok size =>
      rw [h] at told
      obtain ⟨d', here⟩ := told
      cases here
      exact .inr rfl
  | _ =>
    rw [book] at told
    exact .inl told

/-- A sound machine of a program, in which every series has a column of its own. -/
structure Fit (p : Program) (m : Machine) : Prop where
  sound : m.Sound fun _ => False
  program : m.program = p
  annotations : m.annotations = p.code.annotations
  straight : m.store.Straight

def Fits (p : Program) (m m' : Machine) : Prop :=
  Fit p m → Fit p m'

section Fits

variable {p : Program}

instance : Trans (Fits p) (Fits p) (Fits p) :=
  ⟨fun first second fit => second (first fit)⟩

theorem Fit.runs (fit : Fit p m) (closed : p.code.closed) (runs : Obeys (Runs fun _ => False) x) :
    m.Follows (fun _ => False) (leaves x m) :=
  runs m fit.sound (fit.program ▸ closed) (fit.annotations ▸ annotations_closed closed)

theorem Fit.follows (fit : Fit p m) (follows : m.Follows (fun _ => False) m') : Fit p m' :=
  ⟨follows.sound, follows.program.trans fit.program, follows.annotations.trans fit.annotations,
    follows.store.straight fit.straight⟩

theorem Fit.opens (fit : Fit p m) {r : SeriesRef} (present : r.id < m.store.series.size) :
    m.store.Open (fun _ => False) r :=
  ⟨present, fit.straight.inside present, id⟩

theorem runs_fits (closed : p.code.closed) (runs : Obeys (Runs fun _ => False) x) : Obeys (Fits p) x :=
  fun _ fit => fit.follows (fit.runs closed runs)

theorem Fit.withMarket (fit : Fit p m) (market : Market) : Fit p { m with market } := by
  obtain ⟨⟨inside, times, held, inputs, told⟩, program, annotations, straight⟩ := fit
  exact ⟨⟨inside, times, held, inputs, told⟩, program, annotations, straight⟩

theorem onMarket_fits (x : MarketM Unit) : Obeys (Fits p) (onMarket x) := by
  intro m fit
  rw [leaves, outcome_onMarket]
  exact fit.withMarket _

theorem takeInputs_fits {inputs : Value} (plain : ∀ title r, givenInput inputs title ≠ .ok (.series r)) :
    Obeys (Fits p) (modify fun m => { m with userInputs := inputs } : MachineM Unit) := by
  intro m ⟨⟨inside, times, held, _, told⟩, program, annotations, straight⟩
  exact ⟨⟨inside, times, held, plain, told⟩, program, annotations, straight⟩

theorem Fit.withBroker (fit : Fit p m) {b : Broker} (told : ∀ r, ¬ b.told (.series r)) :
    Fit p { m with broker := some b } := by
  obtain ⟨⟨inside, times, held, inputs, _⟩, program, annotations, straight⟩ := fit
  refine ⟨⟨inside, times, held, inputs, ?_⟩, program, annotations, straight⟩
  rintro r ⟨_, ⟨⟩, here⟩
  exact told r here

theorem tell_fits (plain : ∀ r, holdings.get "position_size" ≠ .ok (.series r)) :
    Obeys (Fits p) (withBroker (Broker.update holdings)) := by
  intro m fit
  rw [leaves, Machine.withBroker, get_bind]
  cases broker : m.broker with
  | none => exact fit
  | some b =>
    have told : ∀ r, ¬ (leaves (Broker.update holdings) b).told (.series r) := by
      intro r here
      rcases told_update here with before | now
      · exact fit.sound.told r ⟨b, broker, before⟩
      · exact plain r now
    have after := fit.withBroker told
    change Fit p (leaves (do
      modify fun s => { s with broker := some (leaves (Broker.update holdings) b) }
      MonadExcept.ofExcept (outcome (Broker.update holdings) b).1 : MachineM Unit) m)
    rw [leaves, bind_ok (outcome_modify _ m)]
    cases (outcome (Broker.update holdings) b).1 <;> exact after

end Fits

/-- The machines of a session with a program: prepared, booted on candles, connected to a broker and served with
    candles, each however often and whether it succeeds or fails. What comes from outside names no series. -/
inductive Session (p : Program) : Machine → Prop where
  | prepare (market : Market) (library : Library) {inputs : Value}
      (plain : ∀ title r, givenInput inputs title ≠ .ok (.series r)) :
      Session p (leaves (prepare p inputs) { new .plain market with library })
  | boot {m : Machine} (before : Session p m) (columns : Fields) : Session p (leaves (boot columns) m)
  | connect {m : Machine} (before : Session p m) : Session p { m with broker := some .remote }
  | serve {m : Machine} (before : Session p m) {holdings : Fields} (candle : Fields)
      (plain : ∀ r, holdings.get "position_size" ≠ .ok (.series r)) : Session p (leaves (serve holdings candle) m)

theorem load_fit (closed : p.code.closed) (market : Market) (library : Library) :
    Fit p (leaves (load p) { new .plain market with library }) := by
  have loaded := load_follows (new_sound .plain market library) closed
  refine ⟨loaded.sound, loaded.program, loaded.annotations, loaded.store.straight ⟨rfl, fun i h here => ?_⟩⟩
  cases here

theorem Session.fit (closed : p.code.closed) (session : Session p m) : Fit p m := by
  induction session with
  | @prepare market library inputs plain =>
    refine leaves_bind (load_fit closed market library) fun _ m _ fit => ?_
    exact Obeys.bind (takeInputs_fits plain) (fun _ => runs_fits closed scanMarkets_runs) m fit
  | boot before columns ih =>
    have booted : Obeys (Fits p) (Machine.boot columns) :=
      .bind (.bind (onMarket_fits _) fun _ => runs_fits closed reset_keeps.runs) fun _ => runs_fits closed run_runs
    exact booted _ ih
  | connect before ih =>
    refine ih.withBroker fun r told => ?_
    obtain ⟨d, told⟩ := told
    cases told
  | serve before candle plain ih =>
    have served : Obeys (Fits p) (Machine.serve _ candle) :=
      .bind (tell_fits plain) fun _ => .bind (onMarket_fits _) fun _ => runs_fits closed stepNew_runs
    exact served _ ih

end Machine

end PineEngine
