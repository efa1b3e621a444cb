import PineEngine.Proofs.Recalling

/-! # No look-ahead

A script that looks back only gives the same on the first bars of a window as on all of it: its variables hold the same
numbers, and series that agree on these bars. The first step leaves registers that hold what their nodes stand for, and
these nodes look back only.
-/

namespace PineEngine

open Script Builtin Computation List Code

namespace Script.Code

variable {nodes cs : List Code}

def NumberOf (nodes : List Code) (i : Option Nat) : Prop :=
  ∃ id c, i = some id ∧ nodes[id]? = some c ∧ c.looksBack

variable {i : Option Nat}

theorem mem_allKeep : i ∈ allKeep cs ↔ ∃ c ∈ cs, i ∈ c.keeps := by
  induction cs with
  | nil => simp [allKeep]
  | cons c rest ih => simp [allKeep, ih, or_comm]

theorem mem_namedKeep {named : List (String × Code)} : i ∈ namedKeep named ↔ ∃ c ∈ named.map (·.2), i ∈ c.keeps := by
  induction named with
  | nil => simp [namedKeep]
  | cons entry rest ih => simp [namedKeep, ih, or_comm]

theorem of_connectedKeep {isAnd : Bool} (mem : i ∈ connectedKeep isAnd cs) :
    ∃ c ∈ cs, i ∈ c.keeps := by
  induction cs with
  | nil => simp [connectedKeep] at mem
  | cons c rest ih => grind [connectedKeep]

theorem keeps_cases {c : Code} (mem : i ∈ c.keeps) : i.isSome ∧ c.id? = i ∨ ∃ d, c.Child d ∧ i ∈ d.keeps := by
  cases c with
  | anyOf | allOf => exact .inr (of_connectedKeep mem)
  | choice line id c y no inline =>
    cases no with
    | none => cases mem
    | some e =>
      rw [keeps] at mem
      split at mem <;> simp [Child, children, id?] at mem ⊢ <;> grind
  | _ => grind [keeps, Child, children, id?, mem_allKeep, mem_namedKeep]

theorem keeps_lookBack (c : Code) (fit : c.fits nodes) (back : c.looksBack) (i : Option Nat) (mem : i ∈ c.keeps) :
    NumberOf nodes i := by
  induction c using children_induction with
  | step c ih =>
    rcases keeps_cases mem with ⟨numbered, own⟩ | ⟨d, child, below⟩
    · obtain ⟨id, rfl⟩ := Option.isSome_iff_exists.mp numbered
      exact ⟨id, c, rfl, (fits_numbered fit own).1, back⟩
    · exact ih d child (fits_child fit child) (looksBack_child back child) below

theorem allKeep_lookBack (cs : List Code) (fit : allFit nodes cs) (back : allLookBack cs) (i : Option Nat)
    (mem : i ∈ allKeep cs) : NumberOf nodes i := by
  obtain ⟨c, here, mem⟩ := mem_allKeep.mp mem
  exact keeps_lookBack c ((allFit_iff cs).mp fit c here) ((allLookBack_iff cs).mp back c here) i mem

end Script.Code

def Script.Program.plain (p : Program) : Bool :=
  match p.code with
  | .block _ items => allPlain items
  | c => c.plain

theorem Market.Bars.first {m : Market} {n k : Nat} (bars : m.Bars n) (le : k ≤ n) : (m.first k).Bars k := by
  obtain ⟨kind, machine, same⟩ := bars.times
  refine ⟨Nat.lt_of_le_of_lt le bars.short, fun f => ?_, fun f price v mem => ?_, kind, machine, fun v mem => ?_⟩
  · rw [column_first, length_take, bars.length, Nat.min_eq_left le]
  · rw [column_first] at mem
    exact bars.prices f price v (mem_of_mem_take mem)
  · exact same v (mem_of_mem_take mem)

namespace Machine

def firstStep (p : Program) : MachineM Unit := do
  load p
  step

variable {nodes : List Code} {n k : Nat} {m t : Machine} {p : Program} {market : Market}

def atBar (b : Int) (m : Machine) : Machine :=
  { m with context := m.context.map fun c => { c with bar := b } }

@[simp] theorem registers_atBar (b : Int) (m : Machine) : (m.atBar b).registers = m.registers := by
  cases running : m.context <;> simp [registers, atBar, running]

@[simp] theorem timesNow_atBar (b : Int) (m : Machine) : (m.atBar b).timesNow = m.timesNow := by
  cases running : m.context <;> simp [timesNow, atBar, running]

theorem atBar_atBar (b c : Int) (m : Machine) : (m.atBar b).atBar c = m.atBar c := by
  cases running : m.context <;> simp [atBar, running]

theorem atBar_self {b : Int} (now : m.barNow = some b) : m.atBar b = m := by
  obtain ⟨c, running, rfl⟩ := Option.map_eq_some_iff.mp now
  rw [atBar, running, Option.map_some, ← running]

theorem barNow_atBar {b : Int} (running : m.barNow.isSome) : (m.atBar b).barNow = some b := by
  cases context : m.context with
  | none => simp [barNow, context] at running
  | some c => simp [barNow, atBar, context]

theorem Faithful.atBar (faithful : m.Faithful nodes n) {b : Nat} (low : b < n) : (m.atBar b).Faithful nodes n where
  bars := faithful.bars
  bar := ⟨b, barNow_atBar faithful.running, low⟩
  broker := faithful.broker
  inputs := faithful.inputs
  level := faithful.level
  times := timesNow_atBar b m ▸ faithful.times
  numbered := registers_atBar b m ▸ faithful.numbered
  present := registers_atBar b m ▸ faithful.present
  single := registers_atBar b m ▸ faithful.single
  stands := registers_atBar b m ▸ faithful.stands
  settled := by
    rw [kept, registers_atBar]
    exact faithful.settled

theorem annotations_eq (plain : p.plain) : p.code.annotations = {} := by
  unfold Program.plain at plain
  split at plain
  next line items code =>
    rw [code]
    exact annotateAll_plain {} items plain
  next => exact annotate_plain {} p.code plain

theorem load_answers (nodes : List Code) (mode : Mode) (plain : p.plain) (bars : market.Bars n) (pos : 1 ≤ n) :
    Answers (load p) (new mode market) (Column.ofValues market.candles.time) fun _ _ m =>
      m.Faithful nodes n ∧ m.barNow = some 0 ∧ m.program = p ∧ m.market = market ∧ m.registers = [] := by
  have empty : ({} : Store).Level n := ⟨⟨rfl, nofun⟩, nofun, nofun⟩
  obtain ⟨kind, machine, same⟩ := bars.times
  have single (v : Value) (mem : v ∈ market.candles.time) : v.isSingle :=
    Value.single_of_machine (same v mem ▸ machine)
  unfold load
  rw [annotations_eq plain]
  refine .step (outcome_modify _ _) (.step (outcome_get _) ?_)
  refine .andThen (sourceSeries_answers empty .time (bars.length .time) single) ?_
  rintro c r m' ⟨same, makes⟩
  refine ⟨(), { mode, market, program := p, store := m'.store, context := some { timestamps := r } }, ?_,
    ⟨bars, ⟨0, rfl, pos⟩, rfl, rfl, makes.level, ?_, nofun, nofun, fun _ => rfl, nofun, nofun⟩, rfl, rfl, rfl, rfl⟩
  · rw [same]
    rfl
  · intro q here
    cases here
    exact makes.present

theorem program_denotes (plain : p.plain) (fit : p.code.fits nodes) (closed : p.code.closed) :
    Denotes nodes n p.code := by
  unfold Program.plain at plain
  split at plain
  next line items code =>
    rw [code] at fit closed ⊢
    exact fun m faithful => evalBlock_denotes items fit closed plain faithful (.single rfl)
  next => exact eval_denotes p.code fit closed plain

theorem outcome_topScope (immutable : m.program.mutable = []) : outcome topScope m = (.ok .plain, m) := by
  rw [topScope, get_bind, immutable]
  rfl

theorem step_answers {b : Nat} (faithful : m.Faithful nodes n) (now : m.barNow = some (b : Int))
    (immutable : m.program.mutable = []) (fit : m.program.code.fits nodes) (denotes : Denotes nodes n m.program.code) :
    Answers step m (m.program.code.denote m.market) fun x _ m' => ∃ v m₁,
      m' = m₁.atBar (b + 1 : Nat) ∧ m₁.program = m.program ∧
        Yields nodes n Store.Stands m.program.code.keeps m x v m₁ := by
  refine .step (outcome_topScope immutable) (.step (outcome_get m) (.andThen_ran (denotes m faithful) ?_))
  intro x v m₁ _ ran yields
  have idle (x : BrokerM Unit) : outcome (withBroker x) m₁ = (.ok (), m₁) := by
    rw [withBroker, get_bind, yields.faithful.broker]
    rfl
  have left := eval_leaves .plain nodes m.program.code fit m
  rw [leaves, ran] at left
  obtain ⟨c, running, bar⟩ := Option.map_eq_some_iff.mp (left.bar.trans now)
  refine .step (idle _) ⟨(), _, ?_, v, m₁, rfl, left.program, yields⟩
  rw [modifyContext, bind_ok (outcome_current running), outcome_modify, atBar, running, bar]
  rfl

theorem firstStep_answers (mode : Mode) (plain : p.plain) (immutable : p.mutable = []) (fit : p.code.fits nodes)
    (closed : p.code.closed) (bars : market.Bars n) (pos : 1 ≤ n) :
    Answers (firstStep p) (new mode market) (do
      let _ ← Column.ofValues market.candles.time
      p.code.denote market) fun x _ m' => ∃ v m₀ m₁, m' = m₁.atBar (1 : Nat) ∧ m₁.program = p ∧ m₀.market = market ∧
        m₀.registers = [] ∧ Yields nodes n Store.Stands p.code.keeps m₀ x v m₁ := by
  refine .bind (load_answers nodes mode plain bars pos) ?_
  rintro _ _ m₀ ⟨faithful, now, rfl, rfl, empty⟩
  refine (step_answers faithful now immutable fit (program_denotes plain fit closed)).mono ?_
  rintro x _ _ ⟨v, m₁, rfl, program, yields⟩
  exact ⟨v, m₀, m₁, rfl, program, rfl, empty, yields⟩

end Machine

/-- Whether a script has no assignments, and its statements look back only. -/
def Script.Program.looksBack (p : Program) : Bool :=
  p.mutable.isEmpty && match p.code with
    | .block _ items => Code.allLookBack items
    | c => c.looksBack

/-- What a variable holds: a single value, or the entries of a series. -/
inductive Holding where
  | single (v : Value)
  | series (entries : Column)

def Holding.first (k : Nat) : Holding → Holding
  | single v => single v
  | series entries => series (entries.first k)

namespace Machine

def holding (m : Machine) : Value → Holding
  | .series r => .series (m.store.column r)
  | v => .single v

/-- The variables of a script, in the order in which they were first set. -/
def defined (m : Machine) : List (String × Holding) :=
  m.registers.filterMap fun r => match r.code with
    | .define _ _ name _ => some (name, m.holding r.value)
    | _ => none

variable {nodes : List Code} {n k : Nat} {m t : Machine} {p : Program} {market : Market}

theorem statements_lookBack (back : p.looksBack) : p.mutable = [] ∧
    (p.code.looksBack ∨ ∃ line items, p.code = .block line items ∧ Code.allLookBack items) := by
  obtain ⟨immutable, statements⟩ := (Bool.and_eq_true _ _).mp back
  refine ⟨isEmpty_iff.mp immutable, ?_⟩
  split at statements
  next line items code => exact .inr ⟨line, items, code, statements⟩
  next => exact .inl statements

theorem program_plain (back : p.looksBack) : p.plain := by
  unfold Program.plain
  rcases (statements_lookBack back).2 with back | ⟨line, items, code, back⟩
  · have plain := plain_of_looksBack p.code back
    split
    next code =>
      rw [code, Code.plain, Bool.and_eq_true] at plain
      exact plain.2
    next => exact plain
  · rw [code]
    exact allPlain_of_looksBack items back

theorem program_first (part : Part n k market) (back : p.looksBack) {x : Operand}
    (h : p.code.denote market = .ok x) : p.code.denote (market.first k) = .ok (x.first k) := by
  rcases (statements_lookBack back).2 with back | ⟨line, items, code, back⟩
  · exact (denote_first part p.code back h).2
  · rw [code] at h ⊢
    exact ((denoteLast_settles part.bars (fun _ => part) items (allPlain_of_looksBack items back) (fun _ => back)
      (.single .absent) none (fun _ => trivial) h).2 trivial).2

theorem program_keeps (fit : p.code.fits nodes) (back : p.looksBack) (i : Option Nat) (mem : i ∈ p.code.keeps) :
    Code.NumberOf nodes i := by
  rcases (statements_lookBack back).2 with back | ⟨line, items, code, back⟩
  · exact keeps_lookBack p.code fit back i mem
  · rw [code] at fit mem
    exact allKeep_lookBack items fit back i mem

theorem holding_eq {v : Value} {x : Operand} (stands : m.store.Stands v x) : m.holding v = match x with
    | .single w => .single w
    | .column c => .series c := by
  cases stands with
  | series present column => exact congrArg Holding.series column
  | single single => cases v <;> first | rfl | cases single

theorem filterMap_alike {α β γ : Type} {key : α → γ} {f g : α → Option β} {as bs : List α}
    (same : as.map key = bs.map key) (each : ∀ a ∈ as, ∀ b ∈ bs, key a = key b → f a = g b) :
    as.filterMap f = bs.filterMap g := by
  induction as generalizing bs with
  | nil => rw [map_eq_nil_iff.mp same.symm, filterMap_nil, filterMap_nil]
  | cons a as ih =>
    obtain ⟨b, bs', rfl, here, others⟩ := map_eq_cons_iff.mp same.symm
    have rest := ih others.symm fun a mem b among' =>
      each a (.tail _ mem) b (.tail _ among')
    rw [filterMap_cons, filterMap_cons, rest,
      each a (.head _) b (.head _) here.symm]

theorem defined_first (part : Part n k m.market) (faithful : m.Faithful nodes n)
    (faithful' : t.Faithful nodes k) (market : t.market = m.market.first k) (same : t.kept = m.kept)
    (back : ∀ i ∈ m.kept, Code.NumberOf nodes i) : t.defined = m.defined.map (Prod.map id (Holding.first k)) := by
  have view (m : Machine) : m.defined = (ofScript m.registers).filterMap fun r => match r.code with
      | .define _ _ name _ => some (name, m.holding r.value)
      | _ => none := by
    rw [Machine.defined, ofScript, filterMap_filter]
    refine filterMap_congr fun r _ => ?_
    cases r.code <;> rfl
  rw [view, view, map_filterMap]
  refine filterMap_alike (reverse_inj.mp same) fun a amongA b amongB same => ?_
  have numbered := faithful.numbered b (mem_of_mem_filter amongB)
  have code : a.code = b.code := numbered.eq (faithful'.numbered a (mem_of_mem_filter amongA)) same
  have looksBack : b.code.looksBack := by
    obtain ⟨id, c, named, known, looksBack⟩ := back b.code.id? (mem_reverse.mpr (mem_map_of_mem amongB))
    obtain ⟨id', named', known'⟩ := numbered
    cases named.symm.trans named'
    cases known.symm.trans known'
    exact looksBack
  obtain ⟨y, denoted, stands⟩ := faithful.stands b amongB
  obtain ⟨y', denoted', stands'⟩ := faithful'.stands a amongA
  rw [code, market, (denote_first part b.code looksBack denoted).2] at denoted'
  cases denoted'
  have holds : t.holding a.value = (m.holding b.value).first k := by
    rw [holding_eq stands, holding_eq stands']
    cases y <;> rfl
  rw [code, holds]
  cases b.code <;> rfl

/-- A script that looks back only does not depend on later bars. If its first step succeeds on a window, then it does on
    the first bars of the window, and there every variable holds the same number, or the first entries of its series. -/
theorem defined_firstStep {text : String} {mode : Mode} (compiled : compile text = .ok p) (back : p.looksBack)
    (bars : market.Bars n) (positive : 1 ≤ k) (le : k ≤ n)
    (ran : outcome (firstStep p) (new mode market) = (.ok (), m)) :
    ∃ t, outcome (firstStep p) (new mode (market.first k)) = (.ok (), t) ∧
      t.defined = m.defined.map (Prod.map id (Holding.first k)) := by
  obtain ⟨nodes, fit⟩ := compile_fits compiled
  have closed := compile_closed compiled
  have plain := program_plain back
  have immutable := (statements_lookBack back).1
  obtain ⟨kind, machine, same⟩ := bars.times
  have whole := firstStep_answers mode plain immutable fit closed bars (Nat.le_trans positive le)
  obtain ⟨x, given, v, m₀, m₁, rfl, _, rfl, empty, yields⟩ := whole.ok ran
  obtain ⟨c, times, denoted⟩ := bind_eq_ok given
  have part := firstStep_answers mode plain immutable fit closed (bars.first le) positive
  have some : m₀.market.candles.time ≠ [] := by
    intro none
    have length := bars.length .time
    rw [show m₀.market.candles.column .time = [] from none] at length
    exact Nat.not_succ_le_zero 0 (Nat.le_trans positive (Nat.le_trans le (Nat.le_of_eq length.symm)))
  have plainTimes (v : Value) (among : v ∈ m₀.market.candles.time) : Column.items? v = none :=
    Value.items_of_single (Value.single_of_machine (same v among ▸ machine))
  have times' : Column.ofValues (m₀.market.first k).candles.time = .ok (c.first k) :=
    (Column.ofValues_uniform plainTimes same positive some times).2.2
  rw [times', program_first ⟨bars, positive, le⟩ back denoted] at part
  obtain ⟨_, t, done, v', t₀, t₁, rfl, _, market, empty', yields'⟩ := part
  have kept : m₁.kept = p.code.keeps ∪ [] := by rw [yields.kept, Machine.kept, empty]; rfl
  have kept' : t₁.kept = p.code.keeps ∪ [] := by rw [yields'.kept, Machine.kept, empty']; rfl
  have here := defined_first (m := m₁) (t := t₁) ⟨yields.market ▸ bars, positive, le⟩ yields.faithful yields'.faithful
    (by rw [yields'.market, market, yields.market]) (kept'.trans kept.symm) fun i among => by
      rw [kept, mem_union_iff] at among
      exact program_keeps fit back i (among.resolve_right not_mem_nil)
  refine ⟨_, done, ?_⟩
  rw [Machine.defined, registers_atBar, Machine.defined, registers_atBar]
  exact here

end Machine

def Market.priced (prices : CandleField → List Float) : Market :=
  { candles := Candles.ofColumns fun f => (prices f).map Value.float }

theorem Market.priced_bars {prices : CandleField → List Float} {n : Nat} (short : n < 2 ^ 63)
    (length : ∀ f, (prices f).length = n) : (Market.priced prices).Bars n := by
  have column (f : CandleField) : (Market.priced prices).candles.column f = (prices f).map Value.float := by
    cases f <;> rfl
  refine ⟨short, fun f => ?_, fun f _ v mem => ?_, .float, nofun, fun v mem => ?_⟩
  · rw [column, length_map, length]
  · rw [column] at mem
    obtain ⟨x, _, rfl⟩ := mem_map.mp mem
    exact ⟨x, rfl⟩
  · obtain ⟨x, _, rfl⟩ := mem_map.mp mem
    rfl

def Market.turning : Market :=
  .priced fun
    | .time => [0.0, 60.0, 120.0]
    | .open => [2.0, 1.0, 2.0]
    | .high => [2.5, 3.0, 5.0]
    | .low => [1.0, 0.5, 2.0]
    | .close => [1.0, 2.0, 4.0]
    | .volume => [1.0, 1.0, 1.0]

theorem Market.turning_bars : Market.turning.Bars 3 :=
  priced_bars (by decide) fun f => by cases f <;> rfl

namespace Machine

/-- The program of a text, and the machine that its first step leaves. -/
def begin (text : String) (market : Market) : Option (Program × Machine) :=
  match compile text with
  | .ok p =>
    match outcome (firstStep p) (new .plain market) with
    | (.ok _, m) => some (p, m)
    | _ => none
  | .error _ => none

theorem begin_eq_some {text : String} {market : Market} {p : Program} {m : Machine}
    (h : begin text market = some (p, m)) :
    compile text = .ok p ∧ outcome (firstStep p) (new .plain market) = (.ok (), m) := by
  unfold begin at h
  split at h
  next q compiled =>
    split at h
    next ran =>
      cases h
      exact ⟨compiled, ran⟩
    next => cases h
  next => cases h

/-- A script with a function of its own, a choice on a series and functions that look back. -/
def backText : String :=
  "f(x, y) => x - y[1]\na = nz(f(close, open))\nb = a > 0 ? pivothigh(1, 1) : barssince(close > open)\n"

theorem defined_firstStep_backText : ∃ p m t, compile backText = .ok p ∧ p.looksBack ∧ Market.turning.Bars 3 ∧
    outcome (firstStep p) (new .plain .turning) = (.ok (), m) ∧ m.defined.length = 4 ∧
    outcome (firstStep p) (new .plain (Market.turning.first 2)) = (.ok (), t) ∧
    t.defined = m.defined.map (Prod.map id (Holding.first 2)) := by
  have begun : (begin backText .turning).any fun (p, m) => p.looksBack && m.defined.length == 4 := by decide +kernel
  obtain ⟨⟨p, m⟩, given, back⟩ := (Option.any_eq_true _ _).mp begun
  obtain ⟨compiled, ran⟩ := begin_eq_some given
  obtain ⟨back, count⟩ := Bool.and_eq_true_iff.mp back
  obtain ⟨t, done, same⟩ := defined_firstStep compiled back Market.turning_bars (k := 2) (by decide) (by decide) ran
  exact ⟨p, m, t, compiled, back, Market.turning_bars, ran, eq_of_beq count, done, same⟩

/-- A choice whose first branch is a whole number beyond 64 bits, seen one bar later. -/
def wideText : String :=
  "a = close > open ? 100000000000000000000 : 5\nb = a[1]\nc = b - b\n"

/-- The entries of such a choice are not machine cells. Looking back on a single bar makes truth values of them, which
    cannot be subtracted; on more bars it does not. -/
theorem firstStep_wideText : ∃ p m, compile wideText = .ok p ∧ p.mutable = [] ∧ Market.turning.Bars 3 ∧
    outcome (firstStep p) (new .plain .turning) = (.ok (), m) ∧
    ∀ t, outcome (firstStep p) (new .plain (Market.turning.first 1)) ≠ (.ok (), t) := by
  have begun : (begin wideText .turning).any fun (p, m) => p.mutable.isEmpty &&
      !(outcome (firstStep p) (new .plain (Market.turning.first 1))).1.isOk := by decide +kernel
  obtain ⟨⟨p, m⟩, given, fails⟩ := (Option.any_eq_true _ _).mp begun
  obtain ⟨compiled, ran⟩ := begin_eq_some given
  obtain ⟨immutable, fails⟩ := Bool.and_eq_true_iff.mp fails
  refine ⟨p, m, compiled, isEmpty_iff.mp immutable, Market.turning_bars, ran, fun t done => ?_⟩
  rw [done] at fails
  cases fails

end Machine

end PineEngine
