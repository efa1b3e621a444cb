import PineEngine.Proofs.Advancing

/-! # Actions that wait

The actions of a script wait with the broker until the script has been evaluated; only then they are handed over. If
the evaluation fails they go on waiting. A script does not see what waits: with other actions before its own it gives
the same, fails alike, and puts the same actions behind them (`Queues`, `eval_queues`).

A request to move on that fails therefore leaves its actions to the next one that succeeds: what is handed over is what
earlier requests have left, and after it what the script asks for now (`serve_behind`).
-/

namespace PineEngine

open Script Builtin Computation

namespace Machine

/-- What a computation gives does not depend on the actions that wait, and its own come behind them. -/
def Queues {α : Type} (backlog : List Action) (x : MachineM α) : Prop :=
  ∀ m, outcome x (m.behind backlog) = ((outcome x m).1, (outcome x m).2.behind backlog)

variable {α β : Type} {backlog : List Action}

namespace Queues

theorem pure (a : α) : Queues backlog (pure a) :=
  fun _ => rfl

theorem throw (e : Fault) : Queues backlog (throw e : MachineM α) :=
  fun _ => rfl

theorem bind {x : MachineM α} {f : α → MachineM β} (first : Queues backlog x) (rest : ∀ a, Queues backlog (f a)) :
    Queues backlog (x >>= f) := by
  intro m
  rw [outcome_bind, outcome_bind, first m]
  rcases outcome x m with ⟨e | a, m'⟩
  · rfl
  · exact rest a m'

theorem tryCatch {x : MachineM α} {h : Fault → MachineM α} (first : Queues backlog x)
    (rest : ∀ e, Queues backlog (h e)) : Queues backlog (tryCatch x h) := by
  intro m
  rw [outcome_tryCatch, outcome_tryCatch, first m]
  rcases outcome x m with ⟨e | a, m'⟩
  · exact rest e m'
  · rfl

theorem limit {x : Nat → MachineM α} {y : MachineM α} (nears : Nears x y) (each : ∀ n, Queues backlog (x n)) :
    Queues backlog y := by
  intro m
  have same (n : Nat) : (outcome (x n) (m.behind backlog)).1 = (outcome (x n) m).1 := by
    rw [each n m]
  obtain ⟨never, cut⟩ | ⟨ends, n, agree⟩ := nears m <;>
    obtain ⟨never', cut'⟩ | ⟨ends', n', agree'⟩ := nears (m.behind backlog)
  · rw [never, never']
  · exact (ends' (agree' n' (Nat.le_refl _) ▸ (same n').trans (cut n'))).elim
  · exact (ends (agree n (Nat.le_refl _) ▸ (same n).symm.trans (cut' n))).elim
  · rw [← agree (max n n') (Nat.le_max_left ..), ← agree' (max n n') (Nat.le_max_right ..)]
    exact each _ m

theorem get {f : Machine → MachineM α} (same : ∀ m, f (m.behind backlog) = f m) (rest : ∀ m, Queues backlog (f m)) :
    Queues backlog (get >>= f) := by
  intro m
  rw [get_bind, get_bind, same]
  exact rest m m

theorem modify {f : Machine → Machine} (same : ∀ m, f (m.behind backlog) = (f m).behind backlog) :
    Queues backlog (modify f : MachineM Unit) := by
  intro m
  rw [outcome_modify, outcome_modify, same]

theorem lift (e : Except Fault α) : Queues backlog (liftM e : MachineM α) := by
  cases e <;> exact fun _ => rfl

theorem onStore (x : SeriesM α) : Queues backlog (onStore x) := by
  intro m
  rw [outcome_onStore, outcome_onStore]
  rfl

theorem onMarket (x : MarketM Unit) : Queues backlog (onMarket x) := by
  intro m
  rw [outcome_onMarket, outcome_onMarket]
  rfl

theorem forM {f : α → MachineM PUnit} (each : ∀ a, Queues backlog (f a)) (as : List α) :
    Queues backlog (as.forM f) := by
  induction as with
  | nil => exact pure _
  | cons a as ih => exact bind (each a) fun _ => ih

end Queues

theorem current_queues : Queues backlog current :=
  .get (fun _ => rfl) fun _ => by split <;> first | exact .pure _ | exact .throw _

theorem modifyContext_queues (f : Context → Context) : Queues backlog (modifyContext f) :=
  .bind current_queues fun _ => .modify fun _ => rfl

theorem setRegister_queues (scope : Scope) (code : Code) (v : Value) : Queues backlog (setRegister scope code v) :=
  .bind (modifyContext_queues _) fun _ => by
    split
    · exact .bind (.throw _) fun _ => .pure _
    · exact .pure _

/-- An operation of a broker that adds actions behind those that are there. -/
def Appends (backlog : List Action) (x : BrokerM Unit) : Prop :=
  ∀ b, outcome x (b.behind backlog) = ((outcome x b).1, (outcome x b).2.behind backlog)

theorem addAction_appends (a : Action) : Appends backlog (Broker.addAction a) := by
  intro b
  simp [Broker.addAction, Broker.behind]

theorem entry_appends (kws : Fields) : Appends backlog (Broker.entry kws) := by
  unfold Broker.entry
  simp only [throw_bind]
  split
  · exact fun _ => rfl
  · split
    · exact fun _ => rfl
    · split
      · exact fun _ => rfl
      · exact addAction_appends _

theorem update_appends (holdings : Fields) : Appends backlog (Broker.update holdings) := by
  rintro ⟨settings, actions, book⟩
  rw [Broker.update, get_bind, get_bind]
  cases book with
  | remote size d =>
    simp only [Broker.behind]
    cases holdings.get "position_size" <;> rfl
  | _ => rfl

theorem outcome_withBroker (x : BrokerM Unit) (m : Machine) : outcome (withBroker x) m = match m.broker with
    | none => (.ok (), m)
    | some b => ((outcome x b).1, { m with broker := some (outcome x b).2 }) := by
  rw [withBroker, get_bind]
  cases m.broker with
  | none => rfl
  | some b => exact outcome_liftM (outcome x b).1 { m with broker := some (outcome x b).2 }

theorem withBroker_queues {x : BrokerM Unit} (appends : Appends backlog x) : Queues backlog (withBroker x) := by
  intro m
  rw [outcome_withBroker, outcome_withBroker]
  cases h : m.broker with
  | none => simp [behind, h]
  | some b => simp [behind, h, appends b]

theorem queues_readClosed (backlog : List Action) : ReadClosed fun _ x _ => Queues backlog x where
  pure _ := .pure _
  throw e := .throw e
  bind := .bind
  mono judged _ := judged
  get same := .get (same backlog)
  tryCatch := .tryCatch
  reads _ := .onStore _
  current := current_queues
  register _ := .bind current_queues fun _ => .pure _

theorem barCount_queues : Queues backlog barCount :=
  (queues_readClosed backlog).barCount []

theorem queues_buildClosed (backlog : List Action) : BuildClosed fun _ x _ => Queues backlog x where
  toReadClosed := queues_readClosed backlog
  builds _ := .onStore _
  brings _ := .onStore _
  grows _ := .onStore _
  header _ := .modify fun _ => rfl
  outputs _ := .modify fun _ => rfl
  fills _ := .modify fun _ => rfl
  act a := withBroker_queues (addAction_appends a)
  enter kws := withBroker_queues (entry_appends kws)
  position := by
    refine .get (fun m => ?_) fun m => ?_
    · rw [behind]
      cases m.broker <;> rfl
    · split
      · exact .pure _
      · refine .bind (.lift _) fun _ => .bind ((queues_readClosed backlog).bar []) fun _ => ?_
        split
        · exact .bind barCount_queues fun _ => .bind (.onStore _) fun _ => .pure _
        · exact .pure _
  userInput code a typed := .get (fun _ => rfl) fun _ => .bind ((queues_readClosed backlog).truth [] _) fun _ => by
    split
    · exact .bind ((queues_readClosed backlog).inputTitle [] code a) fun _ => .bind (.lift _) fun _ =>
        .get (fun _ => rfl) fun _ => typed [] _ _
    · exact .pure _

theorem sourceAt_queues (s : Source) (count : Value) : Queues backlog (sourceAt s count) :=
  .get (fun _ => rfl) fun m => by
    split
    · split
      · exact .lift _
      · exact .bind (.lift _) fun _ => .bind (.lift _) fun _ => .bind (.lift _) fun _ => .lift _
      · exact .throw _
    · exact (queues_buildClosed backlog).source [] s

theorem queues_walkClosed (backlog : List Action) :
    WalkClosed (fun _ x _ => Queues backlog x) (OfFirst fun _ x _ => Queues backlog x) where
  toBuildClosed := queues_buildClosed backlog
  toPairClosed := (queues_buildClosed backlog).pair
  write code v := .bind current_queues fun _ => by
    split
    · exact .throw _
    · exact .bind (.onStore _) fun _ => .onStore _
    · exact .throw _
  replace _ _ _ _ := .onStore _
  stamp _ _ := .onStore _
  advance up counter := by
    unfold advance
    dsimp only
    split
    · exact .bind (.onStore _) fun _ => .pure _
    · exact .lift _
  limit nears _ := .limit nears

theorem queues_evalClosed (backlog : List Action) (ids : List Nat) :
    EvalClosed ids (fun _ => True) fun _ x _ => Queues backlog x := by
  have law := queues_walkClosed backlog
  have stores (code : Code) : Stores (OneScope ids) (OfFirst fun _ x _ => Queues backlog x) code :=
    fun scope _ _ _ v => setRegister_queues scope code v
  exact law.codeClosed (.one ids) (fun _ _ => trivial) (fun _ _ => .pure _)
    (fun _ => law.builtinVariable (stores _) fun _ => law.variableValue [] _) fun _ _ _ => stores _

theorem eval_queues (scope : Scope) (code : Code) : Queues backlog (eval scope code) :=
  (queues_evalClosed backlog scope.mutable).judged rfl code trivial []

end Machine

end PineEngine
