import PineEngine.Proofs.Constants
import PineEngine.Proofs.Evaluating
import PineEngine.Proofs.Keys

/-! # Loops

In a loop code does as it does outside of loops until it keeps something in a register, and then it fails (`Machine.Cut`).
So a body that succeeds leaves the registers alone, and each round starts from those that were there before the loop
(`Machine.passes`). A loop between whole numbers has one round for each of them. A loop between other numbers ends only if
the counter comes to the last one exactly.
-/

namespace PineEngine.Machine

variable {r : Except Fault Value × Machine}

open Script Computation Store

def SameContext (m m' : Machine) : Prop :=
  m'.context = m.context

instance : Std.Refl SameContext :=
  ⟨fun _ => rfl⟩

instance : Trans SameContext SameContext SameContext :=
  ⟨fun first second => second.trans first⟩

instance : Writing SameContext where
  store _ _ _ := rfl
  header _ _ := rfl
  outputs _ _ := rfl
  fills _ _ := rfl
  broker _ _ _ _ _ := rfl
  write _ _ _ := rfl

variable {α β : Type} {x y : MachineM α}

/-- A computation does as another one does, and leaves the registers alone; or it has kept something in a register, and
    fails at this. -/
def Cut (x y : MachineM α) : Prop :=
  ∀ m, (outcome x m = outcome y m ∧ SameContext m (leaves x m)) ∨
    ∃ m' code v, SameContext m m' ∧ outcome x m = (.error .operands, m'.put code v)

namespace Cut

theorem bind {f g : α → MachineM β} (first : Cut x y) (rest : ∀ a, Cut (f a) (g a)) :
    Cut (x >>= f) (y >>= g) := by
  intro m
  obtain ⟨agree, kept⟩ | ⟨m', code, v, kept, fails⟩ := first m
  · rw [leaves] at kept
    rcases h : outcome x m with ⟨e | a, m₁⟩ <;> rw [h] at agree kept
    · rw [leaves, bind_error h, bind_error agree.symm]
      exact .inl ⟨rfl, kept⟩
    · rw [leaves, bind_ok h, bind_ok agree.symm]
      obtain ⟨same, later⟩ | ⟨m', code, v, later, fails⟩ := rest a m₁
      · exact .inl ⟨same, Trans.trans kept later⟩
      · exact .inr ⟨m', code, v, Trans.trans kept later, fails⟩
  · exact .inr ⟨m', code, v, kept, bind_error fails⟩

theorem limit {x x' : Nat → MachineM α} {y y' : MachineM α} (nears : Nears x y) (nears' : Nears x' y')
    (each : ∀ n, Cut (x n) (x' n)) : Cut y y' := by
  intro m
  obtain ⟨never, endless⟩ | ⟨ends, n, same⟩ := nears m
  · refine .inl ⟨?_, by rw [leaves, never]; rfl⟩
    obtain ⟨never', _⟩ | ⟨ends', n, same'⟩ := nears' m
    · rw [never, never']
    · obtain ⟨agree, _⟩ | ⟨_, _, _, _, fails⟩ := each n m
      · exact (ends' (by rw [← same' n (Nat.le_refl n), ← agree, endless])).elim
      · cases (endless n).symm.trans (congrArg Prod.fst fails)
  · obtain ⟨_, endless'⟩ | ⟨_, n', same'⟩ := nears' m
    · have cut := each n m
      rw [leaves, same n (Nat.le_refl n)] at cut
      exact cut.imp_left fun left => (ends (by rw [left.1, endless'])).elim
    · have cut := each (max n n') m
      rwa [leaves, same _ (Nat.le_max_left n n'), same' _ (Nat.le_max_right n n')] at cut

theorem set {scope scope' : Scope} (within : scope.inLoop) (code : Code) (v : Value) :
    Cut (setRegister scope code v) (setRegister scope' code v) := by
  intro m
  cases running : m.context with
  | none =>
    rw [leaves, outcome_setRegister_idle running, outcome_setRegister_idle running]
    exact .inl ⟨rfl, rfl⟩
  | some c =>
    refine .inr ⟨m, code, v, rfl, ?_⟩
    rw [outcome_setRegister (by simp [barNow, running]), if_pos within]

theorem walkClosed : WalkClosed (fun _ x _ => Obeys SameContext x) fun _ x y _ => Cut x y where
  toWriteClosed := (obeys_walkClosed SameContext).toWriteClosed
  same kept m := .inl ⟨rfl, kept m⟩
  join := bind
  widen cut _ := cut
  look _ rest := bind (fun _ => .inl ⟨rfl, rfl⟩) rest
  limit := limit

end Cut

theorem eval_cut (scope : Scope) (code : Code) : Cut (eval { scope with inLoop := true } code) (eval scope code) := by
  let Own (s s' : Scope) : Prop := s.inLoop ∧ s'.mutable = s.mutable
  have stores (code : Code) : Stores Own (fun _ x y _ => Cut x y) code := fun _ _ own _ v => Cut.set own.1 code v
  have law : CodeClosed Own (fun _ => True) _ _ := Cut.walkClosed.codeClosed ⟨And.right, fun own => ⟨rfl, own.2⟩⟩
    (fun _ _ => trivial) (fun _ _ => .pure _)
    (fun _ => Cut.walkClosed.builtinVariable (stores _) fun _ => variableValue_quiet _) fun _ _ _ => stores _
  exact law.eval code trivial (by exact ⟨rfl, rfl⟩) []

/-- What a comparison says about two numbers; what is not a number differs from everything. -/
def ordered (op : CompareOp) (a b : Value) : Bool :=
  match Value.compareNumbers a b with
  | some o => op.decideOrder o
  | none => op == .ne

/-- A loop from the number `a` to the number `b` that comes to its first round in the machine `start`. -/
structure Loop where
  scope : Scope
  line : Line
  counterLine : Line
  id : Nat
  name : String
  first : Code
  last : Code
  body : Code
  a : Value
  b : Value
  start : Machine

namespace Loop

def code (l : Loop) : Code :=
  .loop l.line l.counterLine l.id l.name l.first l.last l.body

def counter (l : Loop) : Code :=
  .define l.counterLine l.id l.name l.first

def run (l : Loop) : MachineM Value :=
  eval { l.scope with inLoop := true } l.body

def up (l : Loop) : Bool :=
  ordered .le l.a l.b

def count (l : Loop) : Nat → Value
  | 0 => l.a
  | k + 1 => (Value.arith (if l.up then .add else .sub) (l.count k) (.int 1)).toOption.getD .absent

/-- The machine at the start of each round, if the body succeeds in the rounds before. -/
def pass (l : Loop) : Nat → Machine
  | 0 => l.start
  | k + 1 => (leaves l.run (l.pass k)).put l.counter (l.count (k + 1))

def Passes (l : Loop) (k : Nat) : Prop :=
  ∃ v, (outcome l.run (l.pass k)).1 = .ok v

/-- Outside of other loops, the evaluation of the loop comes to the first round, and the counter is kept. -/
structure Begins (l : Loop) (m : Machine) : Prop where
  outside : l.scope.inLoop = false
  evaluated : ∃ m₀, outcome (eval l.scope l.counter) m = (.ok l.a, m₀) ∧ outcome (eval l.scope l.last) m₀ = (.ok l.b, l.start)
  kept : l.start.holds (some l.id) = some l.a
  numbers : l.a.isNumber ∧ l.b.isNumber

end Loop

theorem compare_numbers (op : CompareOp) {a b : Value} (left : a.isNumber) (right : b.isNumber) (m : Machine) :
    outcome (compare op a b) m = (.ok (.bool (ordered op a b)), m) := by
  have single : compare op a b = liftM ((match Value.compareNumbers a b with
      | some o => .ok (op.decideOrder o)
      | none => .ok (op == .ne) : Except Fault Bool).map Value.bool) := by
    cases a <;> cases left <;> cases b <;> cases right <;> rfl
  rw [single, ordered]
  cases Value.compareNumbers a b <;> rfl

theorem advance_number {v : Value} (number : v.isNumber) (up : Bool) : ∃ w, w.isNumber ∧
    Value.arith (if up then .add else .sub) v (.int 1) = .ok w ∧ advance up v = pure w := by
  cases v <;> cases number <;> cases up <;> exact ⟨_, rfl, rfl, rfl⟩

section

variable {scope : Scope} {code : Code} {up : Bool} {last counter : Value} {body : MachineM Value}

/-- However many rounds are foreseen, a loop comes to a result, and if that is not for want of an end, to a machine. -/
def ComesTo (scope : Scope) (code : Code) (up : Bool) (last : Value) (body : MachineM Value) (counter : Value) (m : Machine)
    (r : Except Fault Value × Machine) : Prop :=
  ∀ n, (outcome (iterate scope code up last body n counter) m).1 = r.1 ∧
    (r.1 ≠ .error .endless → outcome (iterate scope code up last body n counter) m = r)

theorem ComesTo.next {next : Value} {m m' : Machine}
    (ran : outcome (round scope code up last body counter) m = (.ok (.next next), m'))
    (later : ComesTo scope code up last body next m' r) : ComesTo scope code up last body counter m r := by
  intro n
  cases n with
  | zero =>
    have here : countOn? scope code up last body counter m = countOn? scope code up last body next m' := by
      rw [countOn?, show (round scope code up last body counter).run.run m = _ from ran]
    have later : ((countOn? scope code up last body next m').getD (.error .endless, m')).1 = r.1 ∧
        (r.1 ≠ .error .endless → (countOn? scope code up last body next m').getD (.error .endless, m') = r) := later 0
    show ((countOn? scope code up last body counter m).getD (.error .endless, m)).1 = r.1 ∧
        (r.1 ≠ .error .endless → (countOn? scope code up last body counter m).getD (.error .endless, m) = r)
    rw [here]
    cases ended : countOn? scope code up last body next m' with
    | none =>
      rw [ended] at later
      exact ⟨later.1, fun ends => (ends later.1.symm).elim⟩
    | some r =>
      rw [ended] at later
      exact later
  | succ n =>
    rw [iterate, outcome_rounds_succ, ran]
    exact later n

theorem ComesTo.stop {m m' : Machine} {r : Except Fault Value}
    (ran : outcome (round scope code up last body counter) m = (r.map Round.over, m')) :
    ComesTo scope code up last body counter m (r, m') := by
  intro n
  cases n with
  | zero =>
    show ((countOn? scope code up last body counter m).getD (.error .endless, m)).1 = r ∧
        (r ≠ .error .endless → (countOn? scope code up last body counter m).getD (.error .endless, m) = (r, m'))
    rw [countOn?, show (round scope code up last body counter).run.run m = _ from ran]
    cases r with
    | ok v => exact ⟨rfl, fun _ => rfl⟩
    | error e => cases e <;> first | exact ⟨rfl, fun _ => rfl⟩ | exact ⟨rfl, fun ends => (ends rfl).elim⟩
  | succ n =>
    rw [iterate, outcome_rounds_succ, ran]
    cases r <;> exact ⟨rfl, fun _ => rfl⟩

theorem iterate_endless {counter : Nat → Value} {state : Nat → Machine}
    (moved : ∀ j, outcome (round scope code up last body (counter j)) (state j) =
      (.ok (.next (counter (j + 1))), state (j + 1))) (n j : Nat) :
    (outcome (iterate scope code up last body n (counter j)) (state j)).1 = .error .endless := by
  induction n generalizing j with
  | zero =>
    have never : ∀ c m r, countOn? scope code up last body c m = some r → ∀ j, c = counter j → m ≠ state j := by
      refine countOn?.partial_correctness scope code up last body _ fun go ih c m r ended j here there => ?_
      rw [here, there, show (round scope code up last body (counter j)).run.run (state j) = _ from moved j] at ended
      exact ih _ _ r ended (j + 1) rfl rfl
    show ((countOn? scope code up last body (counter j) (state j)).getD (.error .endless, state j)).1 = _
    cases ended : countOn? scope code up last body (counter j) (state j) with
    | none => rfl
    | some r => exact (never _ _ r ended j rfl rfl).elim
  | succ n ih =>
    rw [iterate, outcome_rounds_succ, moved j]
    exact ih (j + 1)

end

namespace Loop

variable {l : Loop} {m m' : Machine} {k : Nat} {v : Value} {e : Fault}

theorem count_number (number : l.a.isNumber) (k : Nat) : (l.count k).isNumber ∧ advance l.up (l.count k) = pure (l.count (k + 1)) := by
  have next (k : Nat) (number : (l.count k).isNumber) :
      (l.count (k + 1)).isNumber ∧ advance l.up (l.count k) = pure (l.count (k + 1)) := by
    obtain ⟨w, number, made, moved⟩ := advance_number number l.up
    have here : l.count (k + 1) = w := by
      rw [count, made]
      rfl
    rw [here]
    exact ⟨number, moved⟩
  induction k with
  | zero => exact ⟨number, (next 0 number).2⟩
  | succ k ih => exact ⟨(next k ih.1).1, (next (k + 1) (next k ih.1).1).2⟩

theorem run_keeps (ran : outcome l.run m = (.ok v, m')) (i : Option Nat) : m'.holds i = m.holds i := by
  obtain ⟨_, kept⟩ | ⟨_, _, _, _, fails⟩ := eval_cut l.scope l.body m
  · rw [leaves, show outcome (eval _ l.body) m = _ from ran] at kept
    rw [holds, holds, kept]
  · cases ran.symm.trans fails

theorem running {i : Option Nat} (kept : m.holds i = some v) : m.barNow.isSome := by
  obtain ⟨c, running, _⟩ := Option.bind_eq_some_iff.mp kept
  rw [barNow, running]
  rfl

theorem reaches (P : Nat → Prop) (n : Nat) : ∃ k ≤ n, (∀ j < k, P j) ∧ (P k → k = n) := by
  induction n with
  | zero => exact ⟨0, Nat.le_refl 0, nofun, fun _ => rfl⟩
  | succ n ih =>
    obtain ⟨k, most, before, last⟩ := ih
    by_cases here : P k
    · obtain rfl := last here
      refine ⟨k + 1, Nat.le_refl _, fun j low => ?_, fun _ => rfl⟩
      exact (Nat.lt_succ_iff_lt_or_eq.mp low).elim (before j) (· ▸ here)
    · exact ⟨k, Nat.le_succ_of_le most, before, fun there => (here there).elim⟩

section Beginning

variable (begins : l.Begins m)

include begins

theorem Begins.pass_holds (ran : ∀ j < k, l.Passes j) :
    (l.pass k).holds (some l.id) = some (l.count k) ∧ ∀ i ≠ some l.id, (l.pass k).holds i = l.start.holds i := by
  induction k with
  | zero => exact ⟨begins.kept, fun _ _ => rfl⟩
  | succ k ih =>
    obtain ⟨here, others⟩ := ih fun j low => ran j (Nat.lt_succ_of_lt low)
    obtain ⟨v, ran⟩ := ran k (Nat.lt_succ_self k)
    have kept := run_keeps (show outcome l.run (l.pass k) = (.ok v, leaves l.run (l.pass k)) by rw [← ran]; rfl)
    have put (i : Option Nat) := holds_put (leaves l.run (l.pass k)) l.counter (l.count (k + 1)) i
      (running ((kept _).trans here))
    exact ⟨(put _).trans (if_pos rfl), fun i other => (put i).trans ((if_neg other.symm).trans ((kept i).trans (others i other)))⟩

theorem Begins.round (ran : ∀ j < k, l.Passes j) (last : outcome l.run (l.pass k) = (.ok v, m')) :
    outcome (Machine.round l.scope l.counter l.up l.b l.run (l.count k)) (l.pass k) =
      if ordered .eq (l.count k) l.b then (.ok (.over v), m') else (.ok (.next (l.count (k + 1))), l.pass (k + 1)) := by
  obtain ⟨number, moved⟩ := count_number begins.numbers.1 k
  have running := running ((run_keeps last _).trans (begins.pass_holds ran).1)
  rw [Machine.round, bind_ok last, bind_ok (compare_numbers .eq number begins.numbers.2 m')]
  show outcome (if ordered .eq (l.count k) l.b then _ else _) m' = _
  split
  · rfl
  · rw [moved, bind_ok (outcome_pure ..), outcome_bind, outcome_setRegister running, begins.outside, pass, leaves, last]
    rfl

theorem Begins.outcome_code : outcome (eval l.scope l.code) m = outcome (do
      let v ← iterate l.scope l.counter l.up l.b l.run (loopBound l.a l.b) l.a
      let _ ← setRegister l.scope l.counter l.a
      pure v) l.start := by
  obtain ⟨m₀, first, last⟩ := begins.evaluated
  have plain {v : Value} (number : v.isNumber) : firstEntry v = pure v := by
    cases v <;> cases number <;> rfl
  show outcome (Machine.loop l.scope l.counter (eval l.scope l.first) (eval l.scope l.last) l.run) m = _
  rw [Machine.loop, bind_ok (show outcome (definition l.scope l.counter (eval l.scope l.first)) m = _ from first),
    bind_ok last, bind_ok (compare_numbers .le begins.numbers.1 begins.numbers.2 _)]
  rw [plain begins.numbers.1]
  rfl

theorem Begins.code_fails
    (failed : (outcome (iterate l.scope l.counter l.up l.b l.run (loopBound l.a l.b) l.a) l.start).1 = .error e) :
    (outcome (eval l.scope l.code) m).1 = .error e := by
  rw [begins.outcome_code, outcome_bind]
  split
  next ran =>
    rw [ran] at failed
    cases failed
  next ran =>
    rw [ran] at failed
    exact failed

variable (ran : ∀ j < k, l.Passes j ∧ ordered .eq (l.count j) l.b = false)

include ran

theorem Begins.comesTo (settled : ComesTo l.scope l.counter l.up l.b l.run (l.count k) (l.pass k) r) :
    ComesTo l.scope l.counter l.up l.b l.run l.a l.start r := by
  induction k with
  | zero => exact settled
  | succ k ih =>
    have before (j : Nat) (low : j < k) := ran j (Nat.lt_succ_of_lt low)
    obtain ⟨⟨v, passed⟩, short⟩ := ran k (Nat.lt_succ_self k)
    have moved := begins.round (fun j low => (before j low).1) (Prod.ext passed rfl)
    rw [short] at moved
    exact ih before (.next moved settled)

theorem Begins.over (there : ordered .eq (l.count k) l.b) (last : outcome l.run (l.pass k) = (.ok v, m')) :
    outcome (eval l.scope l.code) m = (.ok v, m'.put l.counter l.a) := by
  have passed (j : Nat) (low : j < k) := (ran j low).1
  have stops := begins.round passed last
  rw [if_pos there] at stops
  have running := running ((run_keeps last _).trans (begins.pass_holds passed).1)
  rw [begins.outcome_code, bind_ok ((begins.comesTo ran (.stop (r := .ok v) stops) _).2 nofun), outcome_bind,
    outcome_setRegister running, begins.outside]
  rfl

theorem Begins.fails (last : outcome l.run (l.pass k) = (.error e, m')) : (outcome (eval l.scope l.code) m).1 = .error e := by
  have stops : outcome (Machine.round l.scope l.counter l.up l.b l.run (l.count k)) (l.pass k) = (.error e, m') :=
    bind_error last
  exact begins.code_fails (begins.comesTo ran (.stop (r := .error e) stops) _).1

end Beginning

variable {a b : Int}

/-- The counter after so many rounds from `a` towards `b`. -/
def toward (a b : Int) (k : Nat) : Int :=
  if a ≤ b then a + k else a - k

theorem count_whole (first : l.a = .int a) (last : l.b = .int b) (k : Nat) : l.count k = .int (toward a b k) := by
  have up : l.up = decide (a ≤ b) := by
    rw [Loop.up, first, last]
    exact Except.ok.inj (Value.holds_ints .le a b)
  induction k with
  | zero =>
    rw [count, first, toward]
    split <;> simp
  | succ k ih =>
    rw [count, ih, up, toward, toward]
    by_cases le : a ≤ b
    · simp only [le, decide_true, if_true]
      exact congrArg Value.int (Int.add_assoc a k 1)
    · simp only [le, decide_false, if_false]
      exact congrArg Value.int (Int.sub_sub a k 1)

theorem at_last_iff (first : l.a = .int a) (last : l.b = .int b) (k : Nat) :
    ordered .eq (l.count k) l.b = decide (k = (b - a).natAbs) := by
  rw [count_whole first last, last, show ordered .eq (.int (toward a b k)) (.int b) = decide (toward a b k = b) from
    Except.ok.inj (Value.holds_ints .eq _ b), decide_eq_decide, toward]
  split <;> omega

/-- The loop comes to the round `k` of the rounds up to `n`, and starts each of them with the registers from before the loop, the
    counter apart. It is over after the round `n`, or fails as the body does. -/
structure Stops (l : Loop) (m : Machine) (n k : Nat) : Prop where
  reached : k ≤ n ∧ ∀ j < k, l.Passes j
  fresh : ∀ j ≤ k, ∀ i ≠ some l.id, (l.pass j).holds i = l.start.holds i
  ended : ∀ v m', outcome l.run (l.pass k) = (.ok v, m') → k = n ∧
    outcome (eval l.scope l.code) m = (.ok v, m'.put l.counter l.a) ∧
    ∀ i ≠ some l.id, (m'.put l.counter l.a).holds i = l.start.holds i
  failed : ∀ e m', outcome l.run (l.pass k) = (.error e, m') → (outcome (eval l.scope l.code) m).1 = .error e

/-- A loop between two literals that a machine comes to first. -/
def written (a b : Value) (body : Code) : Loop where
  scope := { mutable := [] }
  line := none
  counterLine := none
  id := 0
  name := "i"
  first := .literal none a
  last := .literal none b
  body := body
  a := a
  b := b
  start := ({ new .plain {} with context := some { timestamps := ⟨0⟩ } } : Machine).put (.define none 0 "i" (.literal none a)) a

theorem written_begins {a b : Value} (numbers : a.isNumber ∧ b.isNumber) (body : Code) :
    (written a b body).Begins { new .plain {} with context := some { timestamps := ⟨0⟩ } } where
  outside := rfl
  evaluated := ⟨_, rfl, rfl⟩
  kept := rfl
  numbers := numbers

/-- In a loop between whole numbers the body does as it would outside of loops, or fails when it keeps something in a register.
    No round sees registers of another one, and the loop leaves those that there were. -/
theorem body_alone (begins : l.Begins m) (first : l.a = .int a) (last : l.b = .int b) :
    Cut l.run (eval l.scope l.body) ∧ ∃ k, l.Stops m (b - a).natAbs k := by
  refine ⟨eval_cut l.scope l.body, ?_⟩
  have short (j : Nat) (low : j < (b - a).natAbs) : ordered .eq (l.count j) l.b = false := by
    rw [at_last_iff first last, decide_eq_false (Nat.ne_of_lt low)]
  obtain ⟨k, most, passed, stops⟩ := reaches l.Passes (b - a).natAbs
  have ran (j : Nat) (low : j < k) := And.intro (passed j low) (short j (Nat.lt_of_lt_of_le low most))
  refine ⟨k, ⟨most, passed⟩, fun j upto => ?_, fun v m' given => ?_, fun e m' given => begins.fails ran given⟩
  · exact (begins.pass_holds fun j' low => passed j' (Nat.lt_of_lt_of_le low upto)).2
  · have there := stops ⟨v, congrArg Prod.fst given⟩
    have held := begins.pass_holds passed
    refine ⟨there, begins.over ran (by rw [at_last_iff first last, decide_eq_true there]) given, fun i other => ?_⟩
    have put := holds_put m' l.counter l.a i (running ((run_keeps given _).trans held.1))
    exact put.trans ((if_neg other.symm).trans ((run_keeps given i).trans (held.2 i other)))

def countdown : Loop :=
  written (.int 2) (.int 0) (.variable none "i" (.define none 0 "i" (.literal none (.int 2))))

theorem body_alone_countdown : ∃ m, countdown.Begins m ∧ Cut countdown.run (eval countdown.scope countdown.body) ∧
    ∃ k, countdown.Stops m 2 k :=
  have begins := written_begins (a := .int 2) (b := .int 0) ⟨rfl, rfl⟩ countdown.body
  ⟨_, begins, body_alone (l := countdown) begins rfl rfl⟩

/-- A definition that succeeds outside of loops makes a loop fail. -/
theorem definition_fails_within : ∃ l m, Begins l m ∧ (outcome (eval l.scope l.body) l.start).1 = .ok (.int 1) ∧
    (outcome (eval l.scope l.code) m).1 = .error .operands := by
  have begins := written_begins (a := .int 0) (b := .int 1) ⟨rfl, rfl⟩ (.define none 1 "y" (.literal none (.int 1)))
  exact ⟨_, _, begins, rfl, begins.fails (k := 0) nofun rfl⟩

/-- A loop between whole numbers whose body succeeds has a round for each of them, in order from the first to the last. Its
    value is that of the last round, and the counter is the first number again, also for the next evaluation. -/
theorem loop_counts (begins : l.Begins m) (first : l.a = .int a) (last : l.b = .int b)
    (passes : ∀ k ≤ (b - a).natAbs, l.Passes k) :
    (∀ k ≤ (b - a).natAbs, (l.pass k).holds (some l.id) = some (.int (toward a b k))) ∧
    ∃ v m', outcome l.run (l.pass (b - a).natAbs) = (.ok v, m') ∧
      outcome (eval l.scope l.code) m = (.ok v, m'.put l.counter (.int a)) ∧
      (m'.put l.counter (.int a)).holds (some l.id) = some (.int a) ∧
      ∀ next : Machine, next.holds (some l.id) = some (.int a) → outcome (eval l.scope l.counter) next = (.ok (.int a), next) := by
  have passed (k : Nat) (most : k ≤ (b - a).natAbs) (j : Nat) (low : j < k) := passes j (Nat.le_trans (Nat.le_of_lt low) most)
  refine ⟨fun k most => ?_, ?_⟩
  · rw [(begins.pass_holds (passed k most)).1, count_whole first last]
  · obtain ⟨v, ends⟩ := passes _ (Nat.le_refl _)
    have ran : outcome l.run (l.pass (b - a).natAbs) = (.ok v, leaves l.run (l.pass (b - a).natAbs)) := Prod.ext ends rfl
    have ended := begins.over (fun j low => ⟨passed _ (Nat.le_refl _) j low,
      by rw [at_last_iff first last, decide_eq_false (Nat.ne_of_lt low)]⟩)
      (by rw [at_last_iff first last, decide_eq_true rfl]) ran
    have held := running ((run_keeps ran _).trans (begins.pass_holds (passed _ (Nat.le_refl _))).1)
    refine ⟨v, _, ran, first ▸ ended, (holds_put _ _ _ _ held).trans (if_pos rfl), fun next kept => ?_⟩
    show outcome (definition l.scope l.counter (eval l.scope l.first)) next = _
    rw [definition, bind_ok (outcome_getRegister (running kept) l.counter), show next.holds l.counter.id? = _ from kept]
    rfl

theorem loop_counts_countdown : ∃ m m', countdown.Begins m ∧ (∀ k ≤ 2, countdown.Passes k) ∧
    outcome (eval countdown.scope countdown.code) m = (.ok (.int 0), m') ∧ m'.holds (some 0) = some (.int 2) := by
  have passes (k : Nat) (most : k ≤ 2) : countdown.Passes k :=
    match k with
    | 0 | 1 | 2 => ⟨_, rfl⟩
    | k + 3 => by omega
  have begins := written_begins (a := .int 2) (b := .int 0) ⟨rfl, rfl⟩ countdown.body
  obtain ⟨_, v, m', ran, ended, held, _⟩ := loop_counts (l := countdown) begins rfl rfl passes
  cases ran
  exact ⟨_, _, begins, passes, ended, held⟩

theorem Begins.endless (begins : l.Begins m) (passes : ∀ k, l.Passes k) (never : ∀ k, ordered .eq (l.count k) l.b = false) :
    (outcome (eval l.scope l.code) m).1 = .error .endless := by
  have moved (k : Nat) := begins.round (fun j _ => passes j) (Prod.ext (passes k).choose_spec rfl)
  simp only [never] at moved
  exact begins.code_fails (iterate_endless moved (loopBound l.a l.b) 0)

/-- A loop whose body always succeeds ends exactly if the counter comes to the last number. -/
theorem loop_ends (begins : l.Begins m) (passes : ∀ k, l.Passes k) :
    ((∃ k, ordered .eq (l.count k) l.b) → ∃ v, (outcome (eval l.scope l.code) m).1 = .ok v) ∧
    ((∀ k, ordered .eq (l.count k) l.b = false) → (outcome (eval l.scope l.code) m).1 = .error .endless) := by
  refine ⟨fun ⟨n, there⟩ => ?_, begins.endless passes⟩
  obtain ⟨k, _, short, last⟩ := reaches (fun k => ordered .eq (l.count k) l.b = false) n
  have here : ordered .eq (l.count k) l.b = true :=
    (Bool.eq_false_or_eq_true _).elim (fun there => there) fun short => last short ▸ there
  obtain ⟨v, passed⟩ := passes k
  exact ⟨v, congrArg Prod.fst (begins.over (fun j low => ⟨passes j, short j low⟩) here (Prod.ext passed rfl))⟩

def upTo (x : Float) : Loop :=
  written (.int 0) (.float x) (.literal none .absent)

theorem loop_ends_upTo : ∃ m, (upTo 2.0).Begins m ∧ (∀ k, (upTo 2.0).Passes k) ∧
    ∃ v, (outcome (eval (upTo 2.0).scope (upTo 2.0).code) m).1 = .ok v :=
  have begins := written_begins (a := .int 0) (b := .float 2.0) ⟨rfl, rfl⟩ (.literal none .absent)
  have passes (k : Nat) : (upTo 2.0).Passes k := ⟨_, rfl⟩
  ⟨_, begins, passes, (loop_ends (l := upTo 2.0) begins passes).1 ⟨2, by decide +kernel⟩⟩

/-- A loop from 0 to 2.5 never ends. -/
theorem upTo_half_endless : ∃ m, (upTo 2.5).Begins m ∧ (∀ k, (upTo 2.5).Passes k) ∧
    (outcome (eval (upTo 2.5).scope (upTo 2.5).code) m).1 = .error .endless := by
  have begins := written_begins (a := .int 0) (b := .float 2.5) ⟨rfl, rfl⟩ (.literal none .absent)
  have passes (k : Nat) : (upTo 2.5).Passes k := ⟨_, rfl⟩
  have count (k : Nat) : (upTo 2.5).count k = .int k := by
    induction k with
    | zero => rfl
    | succ k ih =>
      rw [Loop.count, ih, show (upTo 2.5).up = true by decide +kernel]
      rfl
  refine ⟨_, begins, passes, Begins.endless (l := upTo 2.5) begins passes fun k => ?_⟩
  have other : Decimal.compareInt k 2.5 ≠ some .eq := by
    intro same
    rw [Decimal.compareInt, show Decimal.Binary.ofFloat? 2.5 = some ⟨false, 5629499534213120, -51⟩ by decide +kernel] at same
    have whole := Std.compare_eq_iff_eq.mp (Option.some.inj same)
    simp [Decimal.powTwo] at whole
    omega
  rw [count]
  show (match Decimal.compareInt k 2.5 with
    | some o => CompareOp.decideOrder .eq o
    | none => false) = false
  split
  next o given =>
    cases o with
    | eq => exact (other given).elim
    | lt => rfl
    | gt => rfl
  next => rfl

end Loop

end PineEngine.Machine
