import PineEngine.Proofs.Hindsight

/-! # Scripts that settle at the first bar

A script of definitions and expressions over prices that only uses functions of whole series is settled by its first
step: every series that it keeps is valid to its end, and the steps after it succeed, keep nothing new and change
nothing that is kept. What such code stands for does not depend on the bar, and all the nodes that it keeps registers
for are kept at the first one.
-/

namespace PineEngine

open Script Builtin Computation

namespace Script.Code

mutual

/-- Code that gives the same at every bar: an expression over prices and numbers, without assignments or loops, whose
    choices are inline. -/
def steady : Code → Bool
  | .block _ items => !items.isEmpty && allSteady items
  | .literal _ v => v.isNumber
  | .anyOf _ items | .allOf _ items => allSteady items
  | .binary _ _ a b => a.steady && b.steady
  | .unary _ _ a => a.steady
  | .builtin _ _ _ (.source s) => s != .time
  | .variable _ _ target => target.steady
  | .call _ _ fn args named =>
    allSteady args && namedSteady named && callSteady fn (constants args) (namedConstants named)
  | .choice _ _ c y (some e) inline => c.steady && y.steady && e.steady && inline
  | .define _ _ _ e => e.steady
  | .inlined _ _ args body => allSteady args && body.steady
  | _ => false

def allSteady : List Code → Bool
  | [] => true
  | c :: rest => c.steady && allSteady rest

def namedSteady : List (String × Code) → Bool
  | [] => true
  | (_, c) :: rest => c.steady && namedSteady rest

end

theorem allSteady_iff (items : List Code) : allSteady items ↔ ∀ c ∈ items, c.steady := by
  induction items with
  | nil => simp [allSteady]
  | cons c rest ih => simp [allSteady, ih]

theorem namedSteady_iff (named : List (String × Code)) : namedSteady named ↔ ∀ c ∈ named.map (·.2), c.steady := by
  induction named with
  | nil => simp [namedSteady]
  | cons entry rest ih => simp [namedSteady, ih]

theorem steady_child {c d : Code} (steady : c.steady) (child : c.Child d) : d.steady := by
  cases c with
  | choice line id c y no inline => cases no <;> grind [Code.steady, Child, children]
  | list | loop | assign => cases steady
  | _ => grind [Code.steady, Child, children, allSteady_iff, namedSteady_iff]

theorem plain_of_steady (c : Code) (steady : c.steady) : c.plain := by
  induction c using children_induction with
  | step c ih =>
    have parts (d : Code) (child : c.Child d) : d.plain := ih d child (steady_child steady child)
    clear ih
    cases c with
    | choice line id c y no inline => cases no <;> simp_all [Code.steady, Code.plain, Child, children]
    | builtin line id name v => cases v <;> exact steady
    | call id name fn args named =>
      simp only [Code.steady, Code.plain, Bool.and_eq_true, allPlain_iff, namedPlain_iff] at steady ⊢
      exact ⟨⟨fun d mem => parts d (List.mem_append_left _ mem), fun d mem =>
        parts d (List.mem_append_right _ mem)⟩, steady.2⟩
    | list | loop | assign => cases steady
    | _ => simp_all [Code.steady, Code.plain, Child, children, allPlain_iff, or_imp, forall_and]

theorem allPlain_of_steady (cs : List Code) (steady : allSteady cs) : allPlain cs :=
  (allPlain_iff cs).mpr fun c mem => plain_of_steady c ((allSteady_iff cs).mp steady c mem)

end Script.Code

/-- Whether a script has no assignments, and its statements give the same at every bar. -/
def Script.Program.steady (p : Program) : Bool :=
  p.mutable.isEmpty && match p.code with
    | .block _ items => Code.allSteady items
    | c => c.steady

namespace Machine

variable {nodes : List Code} {n b : Nat} {m m' t : Machine} {p : Program} {market : Market}

theorem steady_plain (steady : p.steady) : p.plain := by
  have statements := ((Bool.and_eq_true _ _).mp steady).2
  split at statements
  next line items code =>
    rw [Program.plain, code]
    exact Code.allPlain_of_steady items statements
  next other =>
    unfold Program.plain
    split
    next line items code => exact (other line items code).elim
    next => exact Code.plain_of_steady p.code statements

/-- A machine at a bar after the first step, with the registers that this step left. -/
structure Settles (nodes : List Code) (n : Nat) (m : Machine) (b : Nat) (t : Machine) : Prop where
  now : t.barNow = some (b : Int)
  faithful : ∀ c < n, (t.atBar (c : Nat)).Faithful nodes n
  program : t.program = m.program
  market : t.market = m.market
  registers : t.registers = m.registers
  grows : m.store.Grows t.store

theorem Settles.begin {ids : List (Option Nat)} {x : Operand} {v : Value} {m₁ : Machine}
    (yields : Yields nodes n Store.Stands ids m x v m₁) :
    Settles nodes n (m₁.atBar b) b (m₁.atBar b) := by
  refine ⟨barNow_atBar yields.faithful.running, fun c low => ?_, rfl, rfl, rfl, Std.Refl.refl _⟩
  rw [atBar_atBar]
  exact yields.faithful.atBar low

section

variable {b : Nat} {x : Operand} (immutable : m.program.mutable = []) (fit : m.program.code.fits nodes)
  (denotes : Denotes nodes n m.program.code) (settled : m.program.code.keeps ⊆ m.kept) (many : 2 ≤ n)
  (given : m.program.code.denote m.market = .ok x)

include immutable fit denotes settled many given

theorem Settles.step (settles : Settles nodes n m b t) (low : b < n) :
    ∃ t', outcome Machine.step t = (.ok (), t') ∧ Settles nodes n m (b + 1) t' := by
  have faithful := settles.faithful b low
  rw [atBar_self settles.now] at faithful
  have answers := step_answers faithful settles.now (settles.program ▸ immutable) (settles.program ▸ fit)
    (settles.program ▸ denotes)
  rw [settles.program, settles.market, given] at answers
  obtain ⟨_, _, ran, v, t₁, rfl, program, yields⟩ := answers
  have kept : t.kept = m.kept := by rw [kept, kept, settles.registers]
  -- Nothing more is kept, and what was kept stays in its place.
  have registers : t₁.registers = m.registers := by
    rw [← settles.registers, ← faithful.single many, ← yields.faithful.single many]
    refine (yields.registers.eq_of_length ?_).symm
    have same := congrArg List.length yields.kept
    rw [Yields.union_of_subset (kept ▸ settled)] at same
    simpa [Machine.kept] using same.symm
  refine ⟨_, ran, barNow_atBar yields.faithful.running, fun c low => ?_, program,
    yields.market.trans settles.market, (registers_atBar ..).trans registers, Trans.trans settles.grows yields.grows⟩
  rw [atBar_atBar]
  exact yields.faithful.atBar low

theorem Settles.runTo (settles : Settles nodes n m b t) (le : b ≤ n) (k : Nat) :
    ∃ t', outcome (Machine.runTo n k) t = (.ok (), t') ∧ Settles nodes n m (min n (b + k)) t' := by
  induction k generalizing b t with
  | zero =>
    rw [Nat.add_zero, Nat.min_eq_right le]
    exact ⟨t, rfl, settles⟩
  | succ k ih =>
    rw [Machine.runTo, bind_ok (outcome_bar settles.now)]
    by_cases low : b < n
    · obtain ⟨t₁, ran, settles₁⟩ := settles.step immutable fit denotes settled many given low
      obtain ⟨t₂, ran', settles₂⟩ := ih settles₁ low
      rw [if_pos (Int.ofNat_lt.mpr low), bind_ok ran]
      rw [Nat.add_right_comm, Nat.add_assoc] at settles₂
      exact ⟨t₂, ran', settles₂⟩
    · obtain rfl : b = n := Nat.le_antisymm le (Nat.le_of_not_lt low)
      rw [if_neg (by omega), Nat.min_eq_left (Nat.le_add_right b _)]
      exact ⟨t, rfl, settles⟩

end

/-- The registers are as they were in another machine, and so are the series that they hold. -/
structure Unchanged (m t : Machine) : Prop where
  registers : t.registers = m.registers
  column : ∀ x ∈ m.registers, ∀ r, x.value = .series r → t.store.column r = m.store.column r
  valid : ∀ x ∈ m.registers, ∀ r, x.value = .series r → t.store.valid r = m.store.valid r

theorem Settles.unchanged (settles : Settles nodes n m b t) (faithful : (m.atBar (0 : Nat)).Faithful nodes n) :
    m.Unchanged t := by
  have level := (settles.faithful 0 faithful.positive).level
  have present (x : Register) (mem : x ∈ m.registers) :=
    faithful.present x (by rwa [registers_atBar])
  refine ⟨settles.registers, fun x mem r value => ?_, fun x mem r value => ?_⟩
  · exact faithful.level.column_eq settles.grows (present x mem r value)
  · have there := present x mem r value
    rw [show m.store.valid r = _ from faithful.level.valid r there]
    exact level.valid r (settles.grows.series.lt there)

/-- A steady script is settled by its first step on a window of two bars or more. If this step succeeds, then every
    series that is kept is valid to its end, and all later steps succeed: they keep nothing more, and change nothing
    that is kept. -/
theorem steady_settles {text : String} {mode : Mode} (compiled : compile text = .ok p) (steady : p.steady)
    (bars : market.Bars n) (long : 2 ≤ n) (ran : outcome (firstStep p) (new mode market) = (.ok (), m)) :
    (∀ x ∈ m.registers, ∀ r, x.value = .series r →
      (m.store.column r).length = n ∧ m.store.valid r = (n : Int) - 1) ∧
    (∀ k, ∃ t, outcome (runTo n k) m = (.ok (), t) ∧ t.barNow = some ((min n (1 + k) : Nat) : Int) ∧ m.Unchanged t) ∧
    ∃ t, outcome run m = (.ok (), t) ∧ t.barNow = some (n : Int) ∧ m.Unchanged t := by
  obtain ⟨nodes, fit⟩ := compile_fits compiled
  have immutable := List.isEmpty_iff.mp ((Bool.and_eq_true _ _).mp steady).1
  have plain := steady_plain steady
  have closed := compile_closed compiled
  have first := firstStep_answers mode plain immutable fit closed bars (Nat.le_of_succ_le long)
  obtain ⟨x, given, v, m₀, m₁, rfl, rfl, rfl, empty, yields⟩ := first.ok ran
  obtain ⟨_, _, given⟩ := bind_eq_ok given
  have settles : Settles nodes n (m₁.atBar (1 : Nat)) 1 (m₁.atBar (1 : Nat)) := .begin yields
  have faithful := settles.faithful 0 (Nat.lt_of_lt_of_le Nat.zero_lt_two long)
  have settled : m₁.program.code.keeps ⊆ (m₁.atBar (1 : Nat)).kept := by
    rw [kept, registers_atBar, ← kept, yields.kept]
    exact fun i among => List.mem_union_iff.mpr (.inl among)
  have denoted : m₁.program.code.denote (m₁.atBar (1 : Nat)).market = .ok x := yields.market ▸ given
  have runs (k : Nat) := Settles.runTo (m := m₁.atBar (1 : Nat)) immutable fit (program_denotes plain fit closed) settled
    long denoted settles (Nat.le_of_succ_le long) k
  refine ⟨fun x among r value => ?_, fun k => ?_, ?_⟩
  · have present := faithful.present x (by rwa [registers_atBar]) r value
    exact ⟨(faithful.level.column r present).toFlat.length, faithful.level.valid r present⟩
  · obtain ⟨t, done, later⟩ := runs k
    exact ⟨t, done, later.now, later.unchanged faithful⟩
  · obtain ⟨t, done, later⟩ := runs (n - 1)
    rw [Nat.add_sub_cancel' (Nat.le_of_succ_le long), Nat.min_self] at later
    have count : outcome barCount (m₁.atBar (1 : Nat)) = (.ok n, m₁.atBar (1 : Nat)) := by
      rw [← faithful.bars.size]
      rfl
    have left : ((n : Int) - (1 : Nat)).toNat = n - 1 := by omega
    have bars : outcome runBars (m₁.atBar (1 : Nat)) = (.ok (), t) := by
      rw [runBars, bind_ok count, bind_ok (outcome_bar settles.now), left, done]
    have broker : t.broker = none := (later.faithful 0 faithful.positive).broker
    refine ⟨t, ?_, later.now, later.unchanged faithful⟩
    rw [run, bind_ok bars, get_bind, broker, Option.isSome_none, Bool.and_false]
    rfl

/-- A script with a function of its own, functions of series, an index and an offset ahead, and nested choices. -/
def steadyText : String :=
  "f(x, y) => x - y[1]\na = nz(f(close, open))\n" ++
  "b = a > 0 and close[-1] > 1 ? pivothigh(1, 1) : barssince(close > open)\n" ++
  "c = offset(hl2, -1)\nd = a > 0 ? (b > 1 ? 100000000000000000000 : c) : 5\n"

theorem steady_settles_steadyText : ∃ p m, compile steadyText = .ok p ∧ p.steady ∧ Market.turning.Bars 3 ∧ 2 ≤ 3 ∧
    outcome (firstStep p) (new .plain .turning) = (.ok (), m) ∧ m.registers.length = 9 ∧
    (∀ x ∈ m.registers, ∀ r, x.value = .series r → (m.store.column r).length = 3 ∧ m.store.valid r = 2) ∧
    ∃ t, outcome run m = (.ok (), t) ∧ t.barNow = some 3 ∧ m.Unchanged t := by
  have begun : (begin steadyText .turning).any fun (p, m) => p.steady && m.registers.length == 9 := by decide +kernel
  obtain ⟨⟨p, m⟩, given, steady⟩ := (Option.any_eq_true _ _).mp begun
  obtain ⟨compiled, ran⟩ := begin_eq_some given
  obtain ⟨steady, count⟩ := Bool.and_eq_true_iff.mp steady
  obtain ⟨filled, _, runs⟩ := steady_settles compiled steady Market.turning_bars (by decide) ran
  exact ⟨p, m, compiled, steady, Market.turning_bars, by decide, ran, eq_of_beq count, filled, runs⟩

end Machine

end PineEngine
