import PineEngine.Proofs.Advancing

/-! # Constants in place of built-in variables

A built-in variable that has a value without a machine is replaced by that value when names are resolved. For most of
them this is sound: they tell the same at every bar of every market (`Variable.constant`). The parts of the time of day
and the least step of a price have a value without a machine too, namely zero, but tell something else with one: the
time of day what the clock shows at the bar (`clock_shows`), the least step what the market says. So the value that
stands for a name is right at every bar just if the name is none of these four (`folding_sound_iff`).
-/

namespace PineEngine

open Computation Script Builtin

def Value.Equals (a b : Value) : Prop :=
  a = b ∨ Value.holds .eq a b = .ok true

namespace Builtin.ClockPart

def unit : ClockPart → Int
  | hour => 3600
  | minute => 60
  | second => 1

def count : ClockPart → Int
  | hour => 24
  | minute => 60
  | second => 60

end Builtin.ClockPart

namespace Machine

variable {m : Machine} {t : Int} {part : ClockPart}

def barTime : MachineM Value := do
  let c ← current
  onStore (c.timestamps.get c.bar)

def Gives (m : Machine) (v : Variable) (value : Value) : Prop :=
  ∃ r m', outcome (variableValue v) m = (.ok r, m') ∧ r.Equals value

def partOf (part : ClockPart) (t : Value) : Except Fault Value :=
  match part with
  | .hour => do Value.arith .div (← Value.arith .mod t (.int 86400)) (.int 3600)
  | .minute => do Value.arith .div (← Value.arith .mod t (.int 3600)) (.int 60)
  | .second => Value.arith .mod t (.int 60)

theorem outcome_clock (part : ClockPart) {t : Value} (time : outcome barTime m = (.ok t, m)) :
    outcome (clock part) m = (partOf part t, m) := by
  obtain ⟨c, running, got⟩ := current_reads.bind_eq_ok time
  rw [clock, bind_ok running, bind_ok got]
  cases part with
  | second => exact outcome_liftM _ m
  | hour | minute => exact outcome_liftM_bind fun _ => outcome_liftM _ m

theorem holds_long (n : Int) : Width.long.holds n ↔ -9223372036854775808 ≤ n ∧ n < 9223372036854775808 := by
  show (decide (-9223372036854775808 ≤ n) &&
    decide (n < -9223372036854775808 + (18446744073709551616 : Nat))) = true ↔ _
  simp

theorem wrap_long {n : Int} (inside : Width.long.holds n) : Width.long.wrap n = n := by
  rw [holds_long] at inside
  show (n - -9223372036854775808) % (18446744073709551616 : Nat) + -9223372036854775808 = n
  omega

theorem mod_long {p : Int} (inside : Width.long.holds t) (pos : 0 < p) (small : p < 2 ^ 31) :
    Value.arith .mod (.cell (.int .long t)) (.int p) = .ok (.cell (.int .long (t % p))) := by
  have bounds := Int.emod_nonneg t (show p ≠ 0 by omega)
  have less := Int.emod_lt_of_pos t pos
  have wrapped : Width.long.wrap (t.fmod p) = t % p := by
    rw [Int.fmod_eq_emod_of_nonneg t (by omega), wrap_long ((holds_long _).mpr (by omega))]
  have held : Width.long.holds p := (holds_long p).mpr (by omega)
  have first : Cell.machineInt .long (.cell (.int .long t)) = .ok t := if_pos inside
  have second : Cell.machineInt .long (.int p) = .ok p := if_pos held
  show (Cell.arith .mod (.int .long) (.cell (.int .long t)) (.int p)).map Value.cell = _
  simp only [Cell.arith, first, second, ok_bind, Cell.ints]
  rw [if_neg (by simp; omega), wrapped]
  rfl

def shows (part : ClockPart) (d : Nat) : Bool :=
  match partOf part (.cell (.int .long (part.unit * d))) with
  | .ok r@(.cell _) =>
    match Value.holds .eq r (.int d), Value.holds .eq r (.int 0) with
    | .ok shown, .ok zero => shown && zero == (d == 0)
    | _, _ => false
  | _ => false

theorem shows_all (part : ClockPart) : (List.range part.count.toNat).all (shows part) = true := by
  cases part <;> decide +kernel

theorem partOf_congr {t t' : Value}
    (same : Value.arith .mod t (.int (part.unit * part.count)) = Value.arith .mod t' (.int (part.unit * part.count))) :
    partOf part t = partOf part t' := by
  cases part with
  | hour => exact congrArg (· >>= (Value.arith .div · (.int 3600))) same
  | minute => exact congrArg (· >>= (Value.arith .div · (.int 60))) same
  | second => exact same

theorem partOf_long (inside : Width.long.holds t) (even : part.unit ∣ t) :
    partOf part (.cell (.int .long t)) =
      partOf part (.cell (.int .long (part.unit * (t / part.unit % part.count)))) := by
  obtain ⟨k, rfl⟩ := even
  have turn : 0 < part.unit * part.count ∧ part.unit * part.count < 2 ^ 31 := by cases part <;> decide
  have inside' : Width.long.holds (part.unit * (part.unit * k / part.unit % part.count)) := by
    rw [holds_long]
    cases part <;> simp only [ClockPart.unit, ClockPart.count] <;> omega
  have left : part.unit * k % (part.unit * part.count) =
      part.unit * (part.unit * k / part.unit % part.count) % (part.unit * part.count) := by
    cases part <;> simp only [ClockPart.unit, ClockPart.count] <;> omega
  apply partOf_congr
  rw [mod_long inside turn.1 turn.2, mod_long inside' turn.1 turn.2, left]

section

variable (part : ClockPart) (time : outcome barTime m = (.ok (.cell (.int .long t)), m)) (inside : Width.long.holds t)
  (even : part.unit ∣ t)

include time inside even

theorem clock_shows : ∃ r, outcome (clock part) m = (.ok r, m) ∧ r.Equals (.int (t / part.unit % part.count)) ∧
      (r.Equals (.int 0) ↔ t / part.unit % part.count = 0) := by
  have pos : 0 < part.count := by cases part <;> decide
  obtain ⟨d, digit⟩ := Int.eq_ofNat_of_zero_le (Int.emod_nonneg (t / part.unit) (Int.ne_of_gt pos))
  have low : d < part.count.toNat := by
    have less := Int.emod_lt_of_pos (t / part.unit) pos
    omega
  have shown := List.all_eq_true.mp (shows_all part) d (List.mem_range.mpr low)
  rw [outcome_clock part time, partOf_long inside even, digit]
  unfold shows at shown
  split at shown
  next c read =>
    split at shown
    next told zero number none =>
      simp only [Bool.and_eq_true, beq_iff_eq] at shown
      rw [read]
      refine ⟨_, rfl, .inr (number.trans (congrArg Except.ok shown.1)), ?_⟩
      rw [Value.Equals, none, shown.2]
      simp
    next => cases shown
  next => cases shown

def starting (market : Market) (t : Int) : Machine :=
  leaves reset { mode := .plain, market := { market with candles := Candles.ofColumns fun _ => [.int t] } }

theorem gives_clock_iff : m.Gives (.clock part) (.int 0) ↔ t / part.unit % part.count = 0 := by
  obtain ⟨r, told, _, zero⟩ := clock_shows part time inside even
  rw [← zero]
  constructor
  · rintro ⟨_, _, told', equals⟩
    cases told.symm.trans told'
    exact equals
  · exact fun equals => ⟨r, m, told, equals⟩

end

theorem clock_not_zero (part : ClockPart) : ¬ (starting {} part.unit).Gives (.clock part) (.int 0) := by
  have time :
      outcome barTime (starting {} part.unit) = (.ok (.cell (.int .long part.unit)), starting {} part.unit) := by
    cases part <;> rfl
  have inside : Width.long.holds part.unit := by cases part <;> rfl
  rw [gives_clock_iff part time inside (Int.dvd_refl _)]
  cases part <;> decide

theorem gives_mintick_iff (m : Machine) (value : Value) :
    m.Gives .mintick value ↔ ∃ step, m.market.leastStep = .ok step ∧ step.Equals value := by
  have told : outcome (variableValue .mintick) m = (m.market.leastStep, m) := by
    exact outcome_liftM _ m
  simp only [Gives, told, Prod.mk.injEq]
  constructor
  · rintro ⟨step, _, ⟨here, _⟩, equals⟩
    exact ⟨step, here, equals⟩
  · rintro ⟨step, here, equals⟩
    exact ⟨step, m, ⟨here, rfl⟩, equals⟩

theorem leastStep_not_zero : ¬ (starting { mintick := some (.float 0.5) } 0).Gives .mintick (.float 0.0) := by
  rw [gives_mintick_iff]
  rintro ⟨step, here, same | equal⟩
  · cases here
    have other : (0.5 : Float) ≠ 0.0 := by decide
    exact other (Value.float.inj same)
  · cases here
    have other : (Value.holds .eq (.float 0.5) (.float 0.0)).toOption = some false := by decide +kernel
    rw [equal] at other
    cases other

end Machine

namespace Builtin.Variable

/-- The names of variables that have a value without a machine, and tell something else with one. -/
def frozen : List String :=
  ["hour", "minute", "second", "syminfo.mintick"]

/-- Whether a variable is a part of the time of day, or the least step of a price. -/
def isFrozen : Variable → Bool
  | clock _ => true
  | mintick => true
  | _ => false

theorem isFrozen_iff {name : String} {v : Variable} (known : ofName? name = some v) :
    v.isFrozen = true ↔ name ∈ frozen := by
  have each : all.all (fun e => e.2.isFrozen == frozen.contains e.1) = true := by decide
  obtain ⟨_, _, split, _⟩ := List.lookup_eq_some_iff.mp known
  have here := List.all_eq_true.mp each (name, v) (by rw [split]; simp)
  rw [eq_of_beq here]
  simp

end Builtin.Variable

namespace Script

open Machine

theorem resolveName_literal {line line' : Line} {name : String} {value : Value} {s s' : Resolution}
    (replaced : outcome (resolveName line name) s = (.ok (.literal line' value), s')) :
    ∃ v, Variable.ofName? name = some v ∧ v.folded? = some value := by
  unfold resolveName at replaced
  rw [get_bind] at replaced
  split at replaced
  next => cases replaced
  next =>
    split at replaced
    next => cases replaced
    next v known =>
      split at replaced
      next folded =>
        cases replaced
        exact ⟨v, known, folded⟩
      next => cases replaced

/-- The value that stands for a name in the code is what the variable tells at every machine just if the variable is
    neither a part of the time of day nor the least step of a price. A part of the time of day is zero only where it
    starts again, and the least step where the market has none. -/
theorem folding_sound_iff {line : Line} {name : String} {value : Value} {s s' : Resolution}
    (replaced : outcome (resolveName line name) s = (.ok (.literal line value), s')) :
    ∃ v, Variable.ofName? name = some v ∧
      ((∀ m : Machine, m.Gives v value) ↔ name ∉ Variable.frozen) ∧
      (∀ part, v = .clock part → ∀ (m : Machine) (t : Int), outcome barTime m = (.ok (.cell (.int .long t)), m) →
        Width.long.holds t → part.unit ∣ t → (m.Gives v value ↔ t / part.unit % part.count = 0)) ∧
      (v = .mintick → ∀ m : Machine, m.Gives v value ↔ ∃ step, m.market.leastStep = .ok step ∧ step.Equals value) := by
  obtain ⟨v, known, folded⟩ := resolveName_literal replaced
  refine ⟨v, known, ?_, ?_, ?_⟩
  · rw [← Variable.isFrozen_iff known]
    constructor
    · intro sound frozen
      cases v with
      | clock part =>
        cases folded
        exact clock_not_zero part (sound _)
      | mintick =>
        cases folded
        exact leastStep_not_zero (sound _)
      | _ => cases frozen
    · intro live m
      cases v with
      | constant v =>
        cases folded
        exact ⟨value, m, rfl, .inl rfl⟩
      | clock part | mintick => exact absurd rfl live
      | _ => cases folded
  · rintro part rfl m t time inside even
    cases folded
    exact gives_clock_iff part time inside even
  · rintro rfl m
    exact gives_mintick_iff m value

/-- The hour stands in the code as zero, which not every machine tells. -/
theorem folding_sound_iff_hour :
    outcome (resolveName none "hour") {} = (.ok (.literal none (.int 0)), {}) ∧
      ¬ ∀ m : Machine, m.Gives (.clock .hour) (.int 0) := by
  have replaced : outcome (resolveName none "hour") {} = (.ok (.literal none (.int 0)), {}) := rfl
  obtain ⟨v, known, sound, _⟩ := folding_sound_iff replaced
  cases known
  exact ⟨replaced, fun all => sound.mp all (by decide)⟩

/-- At five in the morning the code has zero for the hour, and the clock shows five. -/
theorem hour_stays_zero :
    outcome (resolveName none "hour") {} = (.ok (.literal none (.int 0)), {}) ∧
      (∃ r, outcome (variableValue (.clock .hour)) (starting {} 18000) = (.ok r, starting {} 18000) ∧
        r.Equals (.int 5)) ∧
      ¬ (starting {} 18000).Gives (.clock .hour) (.int 0) := by
  have time : outcome barTime (starting {} 18000) = (.ok (.cell (.int .long 18000)), starting {} 18000) := rfl
  have even : ClockPart.hour.unit ∣ 18000 := ⟨5, rfl⟩
  obtain ⟨r, told, shown, _⟩ := clock_shows .hour time rfl even
  refine ⟨rfl, ⟨r, told, shown⟩, ?_⟩
  rw [gives_clock_iff .hour time rfl even]
  decide

end Script

end PineEngine
