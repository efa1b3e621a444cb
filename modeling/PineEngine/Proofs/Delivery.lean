import Mathlib.Data.List.DropRight
import PineEngine.Proofs.Backlog

/-! # What is handed over

A served machine answers a request to move on with actions. They are those that the script asks for at this request
(`StepCall.asked`), behind those that the requests before it have left: a request that fails hands nothing over, and
nothing takes its actions back. So the answer is what the script asks for now if and only if all requests that
failed since the last answer asked for nothing (`answer_after_failures`).
-/

namespace PineEngine

open Script Computation

structure StepCall where
  holdings : Fields
  candle : Fields

def StepCall.Plain (q : StepCall) : Prop :=
  ∀ r, q.holdings.get "position_size" ≠ .ok (.series r)

namespace Machine

variable {p : Program} {m m' : Machine} {q : StepCall}

def waiting (m : Machine) : List Action :=
  (m.broker.map (·.actions)).getD []

def emptied (m : Machine) : Machine :=
  { m with broker := m.broker.map fun b => { b with actions := [] } }

def evaluate : MachineM Unit := do
  makeRoom (← current)
  let _ ← eval (← topScope) (← get).program.code

def collect (q : StepCall) : MachineM Unit := do
  withBroker (Broker.update q.holdings)
  onMarket (Market.updateOhlcv2 q.candle)
  evaluate

def deliver : MachineM (List Action) := do
  withBroker (do let _ ← Broker.step)
  handOver

theorem serve_eq (q : StepCall) : serve q.holdings q.candle = (do
    collect q
    deliver) := by
  simp only [serve, moveOn, stepNew_eq, act, step, collect, evaluate, deliver, handOver, bind_assoc]
  rfl

/-- What the script asks for at a call: what waits when its evaluation has come to an end, be it a failure, if nothing
    waited before. -/
def asked (q : StepCall) (m : Machine) : List Action :=
  (leaves (collect q) m.emptied).waiting

theorem behind_emptied (m : Machine) : m.emptied.behind m.waiting = m := by
  obtain ⟨_, _, _, _, broker, _, _, _, _, _, _, _⟩ := m
  cases broker with
  | none => rfl
  | some b => simp [behind, emptied, waiting, Broker.behind]

theorem waiting_behind (connected : m.Connected) (backlog : List Action) :
    (m.behind backlog).waiting = backlog ++ m.waiting := by
  obtain ⟨_, b, broker, _⟩ := connected
  simp [waiting, behind, broker, Broker.behind]

variable {backlog : List Action} {text : String}

theorem stepSeries_queues (r : SeriesRef) : Queues backlog (stepSeries r) := by
  refine .bind (.onStore _) fun origin => ?_
  split
  · exact .bind (.onStore _) fun _ => .pure _
  · exact .throw _
  · exact .bind (sourceAt_queues _ _) fun v => .bind (.onStore _) fun _ => .pure _

theorem makeRoom_queues (c : Context) : Queues backlog (makeRoom c) := by
  have held (x : Register) : Queues backlog (stepHeld x) := by
    unfold stepHeld
    split
    · exact stepSeries_queues _
    · exact .pure _
  exact .bind (.forM held _) fun _ => .bind (stepSeries_queues _) fun _ => .bind barCount_queues fun _ =>
    modifyContext_queues _

theorem collect_queues (q : StepCall) : Queues backlog (collect q) :=
  .bind (withBroker_queues (update_appends _)) fun _ => .bind (.onMarket _) fun _ => .bind current_queues fun c =>
    .bind (makeRoom_queues c) fun _ => .get (fun _ => rfl) fun _ => .get (fun _ => rfl) fun _ =>
      .bind (eval_queues _ _) fun _ => .pure _

theorem evaluate_runs {apart : Nat → Prop} : Obeys (Runs apart) evaluate := by
  refine makeRoom_runs fun m sound closed _ => ?_
  have keeps : Keeps apart [] (do let _ ← eval { mutable := m.program.mutable } m.program.code) fun _ => [] :=
    .bind (eval_keeps _ _ _ closed) fun _ => .of_reads (.pure _)
  exact keeps.follows sound

theorem evaluate_times {nodes : List Code} : Obeys (KeepsTimes nodes) evaluate := by
  refine .bind (.of_reads current_reads) fun c => .bind (makeRoom_times c) fun _ m fit => ?_
  have leaves := eval_leaves { mutable := m.program.mutable } nodes _ fit m
  have same : Computation.leaves (do let _ ← eval (← topScope) (← get).program.code) m =
      Computation.leaves (eval { mutable := m.program.mutable } m.program.code) m :=
    leaves_bind_pure _ (fun _ => ()) m
  rw [same]
  exact ⟨leaves.program, leaves.times⟩

def Tethered (p : Program) (m m' : Machine) : Prop :=
  Fit p m → m.Connected → Fit p m' ∧ m'.Connected

instance : Trans (Tethered p) (Tethered p) (Tethered p) := by
  refine ⟨fun first second fit connected => ?_⟩
  obtain ⟨fit', connected'⟩ := first fit connected
  exact second fit' connected'

theorem tethered_of_runs {α : Type} {x : MachineM α} (closed : p.code.closed) (runs : Obeys (Runs fun _ => False) x) :
    Obeys (Tethered p) x := by
  intro m fit ⟨v, told⟩
  have follows := fit.runs closed runs
  exact ⟨fit.follows follows, v, (follows.told v).mpr told⟩

theorem tell_tethered (plain : q.Plain) : Obeys (Tethered p) (withBroker (Broker.update q.holdings)) := by
  intro m fit connected
  refine ⟨tell_fits plain m fit, ?_⟩
  cases h : q.holdings.get "position_size" with
  | ok size =>
    obtain ⟨b, told, done⟩ := outcome_tell connected h
    rw [leaves, done]
    exact ⟨size, b, rfl, told⟩
  | error e =>
    obtain ⟨v, b, broker, d, book⟩ := connected
    have refused : outcome (Broker.update q.holdings) b = (.error e, b) := by
      simp only [Broker.update, get_bind, book, h]
      rfl
    rw [leaves, outcome_withBroker]
    simp only [broker, refused]
    exact ⟨v, b, rfl, d, book⟩

theorem onMarket_tethered (x : MarketM Unit) : Obeys (Tethered p) (onMarket x) := by
  intro m fit connected
  refine ⟨onMarket_fits x m fit, ?_⟩
  rw [leaves, outcome_onMarket]
  exact connected

theorem collect_tethered (closed : p.code.closed) (plain : q.Plain) : Obeys (Tethered p) (collect q) :=
  .bind (tell_tethered plain) fun _ => .bind (onMarket_tethered _) fun _ => tethered_of_runs closed evaluate_runs

theorem serve_tethered (closed : p.code.closed) (plain : q.Plain) : Obeys (Tethered p) (serve q.holdings q.candle) :=
  .bind (tell_tethered plain) fun _ => .bind (onMarket_tethered _) fun _ => tethered_of_runs closed stepNew_runs

theorem collect_running (compiled : compile text = .ok p) (fit : Fit p m) (plain : q.Plain)
    (done : outcome (collect q) m = (.ok (), m')) : m'.context.isSome := by
  obtain ⟨nodes, numbered⟩ := compile_fits compiled
  obtain ⟨_, m₁, told, _, m₂, moved, evaluated⟩ := outcome_bind₂_eq_ok done
  have fit₁ : Fit p (leaves (withBroker (Broker.update q.holdings)) m) := tell_fits plain m fit
  rw [leaves, told] at fit₁
  have fit₂ : Fit p (leaves (onMarket (Market.updateOhlcv2 q.candle)) m₁) := onMarket_fits _ m₁ fit₁
  rw [leaves, moved] at fit₂
  obtain ⟨_, times⟩ := evaluate_times m₂ (fit₂.program.symm ▸ numbered)
  rw [leaves, evaluated] at times
  obtain ⟨c, running, _⟩ := current_eq_ok evaluated
  have here : m'.timesNow = some c.timestamps := by
    rw [times, timesNow, running]
    rfl
  obtain ⟨c', running', _⟩ := Option.map_eq_some_iff.mp here
  exact running' ▸ rfl

theorem outcome_handOver {b : Broker} {c : Context} (broker : m.broker = some b) (running : m.context = some c) :
    outcome handOver m = (b.delivered, { m with context := some { c with bar := c.bar + 1 } }) := by
  rw [handOver, bind_ok (outcome_modifyContext running _), get_bind]
  simp only [broker]
  exact outcome_liftM _ _

theorem outcome_deliver (connected : m.Connected) (running : m.context.isSome) :
    (outcome deliver m).1 = .ok m.waiting ∧ (outcome deliver m).2.waiting = [] := by
  obtain ⟨size, b, broker, d, book⟩ := connected
  obtain ⟨c, running⟩ := Option.isSome_iff_exists.mp running
  have handed : outcome (do let _ ← Broker.step : BrokerM Unit) b =
      (.ok (), { b with actions := [], book := .remote size (some b.actions) }) := by
    simp only [Broker.step, bind_assoc, get_bind, book]
    rfl
  have stepped : outcome (withBroker (do let _ ← Broker.step)) m =
      (.ok (), { m with broker := some { b with actions := [], book := .remote size (some b.actions) } }) := by
    rw [outcome_withBroker]
    simp only [broker, handed]
  rw [deliver, bind_ok stepped]
  have here : ({ m with broker := some { b with actions := [], book := .remote size (some b.actions) } } :
      Machine).context = some c := running
  rw [outcome_handOver rfl here]
  refine ⟨?_, rfl⟩
  rw [waiting, broker]
  rfl

theorem emptied_tethered (fit : Fit p m) (connected : m.Connected) : Fit p m.emptied ∧ m.emptied.Connected := by
  obtain ⟨size, b, broker, d, book⟩ := connected
  have same : m.emptied = { m with broker := some { b with actions := [] } } := by
    rw [emptied, broker]
    rfl
  rw [same]
  refine ⟨fit.withBroker fun r told => ?_, size, _, rfl, d, book⟩
  exact fit.sound.told r ⟨b, broker, told⟩

/-- A call that fails leaves what it has asked for behind what waited before; a call that succeeds hands all of it
    over. -/
theorem serve_asked (compiled : compile text = .ok p) (fit : Fit p m) (connected : m.Connected) (plain : q.Plain) :
    (∃ e, (outcome (serve q.holdings q.candle) m).1 = .error e ∧
        (leaves (serve q.holdings q.candle) m).waiting = m.waiting ++ asked q m) ∨
      ((outcome (serve q.holdings q.candle) m).1 = .ok (m.waiting ++ asked q m) ∧
        (leaves (serve q.holdings q.candle) m).waiting = []) := by
  obtain ⟨fit', connected'⟩ := emptied_tethered fit connected
  obtain ⟨fit₁, connected₁⟩ := collect_tethered (compile_closed compiled) plain m.emptied fit' connected'
  -- The evaluation goes as it would with nothing waiting, and its actions are behind those that wait.
  have collected : outcome (collect q) (m.emptied.behind m.waiting) = _ := collect_queues q m.emptied
  have left := waiting_behind connected₁ m.waiting
  rw [behind_emptied] at collected
  rw [leaves] at left connected₁
  rw [leaves, serve_eq, asked, leaves]
  rcases done : outcome (collect q) m.emptied with ⟨e | _, m'⟩ <;> rw [done] at collected left connected₁
  · rw [bind_error collected]
    exact .inl ⟨e, rfl, left⟩
  · have running := collect_running compiled fit' plain done
    have behind : (m'.behind m.waiting).Connected := by
      obtain ⟨size, b, broker, d, book⟩ := connected₁
      exact ⟨size, b.behind m.waiting, by rw [Machine.behind, broker]; rfl, d, book⟩
    obtain ⟨answer, none⟩ := outcome_deliver behind running
    rw [bind_ok collected]
    exact .inr ⟨left ▸ answer, none⟩

/-- What the script asked for at a call, and what was answered. -/
structure Exchange where
  asked : List Action
  answer : Except Fault (List Action)

namespace Exchange

def failed (x : Exchange) : Bool :=
  match x.answer with
  | .ok _ => false
  | .error _ => true

def leaving (left : List Action) (x : Exchange) : List Action :=
  if x.failed then left ++ x.asked else []

theorem foldl_leaving (xs : List Exchange) :
    xs.foldl leaving [] = (xs.rtakeWhile failed).flatMap (·.asked) := by
  induction xs using List.reverseRecOn with
  | nil => rfl
  | append_singleton xs x ih =>
    rw [List.foldl_append, ih, List.rtakeWhile_concat]
    cases failing : x.failed <;> simp [leaving, failing]

end Exchange

/-- Call after call, each on the machine that the one before it left. -/
def exchanges : List StepCall → Machine → List Exchange
  | [], _ => []
  | q :: qs, m =>
    ⟨asked q m, (outcome (serve q.holdings q.candle) m).1⟩ :: exchanges qs (leaves (serve q.holdings q.candle) m)

theorem exchange_answer (compiled : compile text = .ok p) (fit : Fit p m) (connected : m.Connected)
    {qs : List StepCall} (plain : ∀ q ∈ qs, q.Plain) {before after : List Exchange} {x : Exchange}
    {actions : List Action} (happened : exchanges qs m = before ++ x :: after) (answered : x.answer = .ok actions) :
    actions = before.foldl Exchange.leaving m.waiting ++ x.asked := by
  induction qs generalizing m before with
  | nil => cases before <;> cases happened
  | cons q qs ih =>
    have served := serve_asked compiled fit connected (plain q (.head _))
    obtain ⟨fit', connected'⟩ :=
      serve_tethered (compile_closed compiled) (plain q (.head _)) m fit connected
    cases before with
    | nil =>
      cases happened
      rcases served with ⟨e, answer, _⟩ | ⟨answer, _⟩
      · cases answered.symm.trans answer
      · cases answered.symm.trans answer
        rfl
    | cons y before =>
      obtain ⟨rfl, rest⟩ := List.cons.inj happened
      rw [ih fit' connected' (fun q' mem => plain q' (.tail _ mem)) rest, List.foldl_cons]
      rcases served with ⟨e, answer, left⟩ | ⟨answer, left⟩
      · rw [left, Exchange.leaving, Exchange.failed, answer]
        rfl
      · rw [left, Exchange.leaving, Exchange.failed, answer]
        rfl

/-- A machine that was just connected is called again and again. Each answer is what the calls since the answer before
    it have asked for, behind that what the script asks for now; so it is what the script asks for now exactly if
    those calls, which all failed, asked for nothing. -/
theorem answer_after_failures {text : String} (compiled : compile text = .ok p) (session : Session p m)
    (fresh : m.broker = some .remote) {qs : List StepCall} (plain : ∀ q ∈ qs, q.Plain)
    {before after : List Exchange} {x : Exchange} {actions : List Action}
    (happened : exchanges qs m = before ++ x :: after) (answered : x.answer = .ok actions) :
    actions = (before.rtakeWhile Exchange.failed).flatMap (·.asked) ++ x.asked ∧
      (actions = x.asked ↔ ∀ y ∈ before.rtakeWhile Exchange.failed, y.asked = []) := by
  have fit := session.fit (compile_closed compiled)
  have nothing : m.waiting = [] := by
    rw [waiting, fresh]
    rfl
  have all := exchange_answer compiled fit ⟨.int 0, .remote, fresh, none, rfl⟩ plain happened answered
  rw [nothing, Exchange.foldl_leaving] at all
  refine ⟨all, ?_⟩
  rw [all, List.append_left_eq_self, List.flatMap_eq_nil_iff]

/-- A script that closes all positions, and enters above a price by an order that is refused. -/
def refusedText : String :=
  "strategy.close_all()\nstrategy.entry(\"long\", true, limit=1, when=close > 10)\n"

def flatCall (t price price' : Int) : StepCall :=
  ⟨[("position_size", .int 0)], sent CandleField.all [flatCandle t price, flatCandle (t + 60) price']⟩

theorem flatCall_plain (t price price' : Int) : (flatCall t price price').Plain :=
  nofun

/-- Whether a call failed and the next one answered with two actions, though it asked for one. -/
def answeredLate : List Exchange → Bool
  | [y, ⟨asked, .ok actions⟩] => y.failed && actions.length == 2 && asked.length == 1
  | _ => false

theorem refused_exchanges : ∃ p m y x actions, compile refusedText = .ok p ∧ Session p m ∧ m.broker = some .remote ∧
    exchanges [flatCall 240 11 9, flatCall 300 9 8] m = [y, x] ∧ y.failed ∧ x.answer = .ok actions ∧
    actions.length = 2 ∧ x.asked.length = 1 := by
  have checked : (booted refusedText (flatCandles 60 60 [7, 8, 9, 10])).any fun (_, m) =>
      answeredLate (exchanges [flatCall 240 11 9, flatCall 300 9 8] { m with broker := some .remote }) := by
    decide +kernel
  obtain ⟨⟨p, m⟩, h, holds⟩ := (Option.any_eq_true _ _).mp checked
  obtain ⟨compiled, m₀, session, started⟩ := booted_eq_some h
  have left : leaves (boot (sent CandleField.all (flatCandles 60 60 [7, 8, 9, 10]))) m₀ = m := congrArg Prod.snd started
  dsimp only at holds
  unfold answeredLate at holds
  split at holds
  next y asked actions happened =>
    simp only [Bool.and_eq_true, beq_iff_eq] at holds
    exact ⟨p, _, y, _, actions, compiled, .connect (left ▸ .boot session _), rfl, happened, holds.1.1, rfl, holds.1.2,
      holds.2⟩
  next => cases holds

/-- An answer with the action of a call that failed before it. -/
theorem answer_after_failures_refused : ∃ p m y x actions, compile refusedText = .ok p ∧ Session p m ∧
    m.broker = some .remote ∧ exchanges [flatCall 240 11 9, flatCall 300 9 8] m = [y, x] ∧ y.failed ∧
    x.answer = .ok actions ∧ actions = y.asked ++ x.asked ∧ y.asked ≠ [] := by
  obtain ⟨p, m, y, x, actions, compiled, session, fresh, happened, failed, answered, two, one⟩ := refused_exchanges
  have plain : ∀ q ∈ [flatCall 240 11 9, flatCall 300 9 8], q.Plain := by
    intro q among
    simp only [List.mem_cons, List.not_mem_nil, or_false] at among
    rcases among with rfl | rfl <;> exact flatCall_plain _ _ _
  have second : exchanges [flatCall 240 11 9, flatCall 300 9 8] m = [y] ++ x :: [] := happened
  have all := (answer_after_failures compiled session fresh plain second answered).1
  have since : [y].rtakeWhile Exchange.failed = [y] := List.rtakeWhile_concat_pos _ [] y failed
  rw [since, List.flatMap_singleton] at all
  refine ⟨p, m, y, x, actions, compiled, session, fresh, happened, failed, answered, all, fun none => ?_⟩
  rw [all, none, List.nil_append, one] at two
  cases two

/-- An answer is not always what the script asked for at its call. -/
theorem refused_action_comes_later : ∃ p m y x actions, compile refusedText = .ok p ∧ Session p m ∧
    m.broker = some .remote ∧ exchanges [flatCall 240 11 9, flatCall 300 9 8] m = [y, x] ∧ y.failed ∧
    x.answer = .ok actions ∧ actions ≠ x.asked := by
  obtain ⟨p, m, y, x, actions, compiled, session, fresh, happened, failed, answered, two, one⟩ := refused_exchanges
  refine ⟨p, m, y, x, actions, compiled, session, fresh, happened, failed, answered, fun same => ?_⟩
  rw [same, one] at two
  cases two

end Machine

end PineEngine
