import PineEngine.Proofs.Evaluating

/-! # How definitions are evaluated

A definition that has nothing yet keeps what its expression gives, or starts a series of its own if assignments change
it. Later its expression is evaluated only to bring the series up to date, and what is stored then is one entry
(`Machine.Defining`).
-/

namespace PineEngine

open Script Builtin Computation Store SeriesRef

/-- What a series that a value starts has where nothing is stored: it is of doubles if the value is one, and of integers
    if the value is an integer or a truth value. -/
def Value.blank? : Value → Option Value
  | .float _ | .cell (.float _) => some (.float notANumber)
  | .int _ | .bool _ => some (.int 0)
  | _ => none

/-- A column of so many doubles or long integers, one for an entry. -/
structure Column.Numeric (n : Nat) (c : Column) : Prop where
  flat : c.rowLen = none
  length : c.length = n
  kind : c.cells.kind = .float ∨ c.cells.kind = .int .long

variable {start v : Value}

theorem Column.replicate_blank (blank : v.blank? = some start) (n : Nat) :
    ∃ c, Column.replicate n start = .ok c ∧ c.Numeric n := by
  have shape : start = .float notANumber ∨ start = .int 0 := by
    unfold Value.blank? at blank
    split at blank <;> cases blank <;> simp
  cases n with
  | zero => exact ⟨_, rfl, rfl, rfl, .inl rfl⟩
  | succ n =>
    rcases shape with rfl | rfl
    · exact ⟨_, ofValues_notNumbers n, rfl, List.length_replicate, .inl rfl⟩
    · exact ⟨_, ofValues_zeros n, rfl, List.length_replicate, .inr rfl⟩

theorem outcome_unknown {n : Nat} (plain : ∀ r, v ≠ .series r) {c : Column}
    (made : Column.replicate n v = .ok c) (s : Store) :
    outcome (SeriesRef.unknown n v) s = (.ok ⟨s.series.size⟩, (s.alloc c (-1) .plain).2) := by
  rw [unknown, bind_ok (outcome_replicate plain made s), bind_ok (outcome_setValid _ _ _),
    Store.setValid_alloc]
  rfl

namespace Machine

variable {m m' : Machine} {scope : Scope} {expr : MachineM Value} {w : Value}

theorem startValue_eq_ok (found : outcome (startValue v) m = (.ok start, m')) :
    ∃ w, outcome (sample v) m = (.ok w, m) ∧ w.blank? = some start := by
  obtain ⟨w, sampled, found⟩ := (sample_reads v).bind_eq_ok found
  refine ⟨w, sampled, ?_⟩
  split at found
  · cases found; rfl
  · cases found; rfl
  · cases found; rfl
  · cases found; rfl
  · obtain ⟨_, _, found⟩ := (printedValue_reads _).bind_eq_ok found
    cases found

theorem outcome_allocRegister (started : outcome (startValue v) m = (.ok start, m)) (code : Code) :
    ∃ c, Column.replicate m.size start = .ok c ∧ c.Numeric m.size ∧
      outcome (allocRegister scope code v) m = outcome (setRegister scope code (.series ⟨m.store.series.size⟩))
        { m with store := (m.store.alloc c (-1) .plain).2 } := by
  obtain ⟨w, _, blank⟩ := startValue_eq_ok started
  obtain ⟨c, made, numeric⟩ := Column.replicate_blank blank m.size
  have plain (r : SeriesRef) : start ≠ .series r := by
    rintro rfl
    unfold Value.blank? at blank
    split at blank <;> cases blank
  refine ⟨c, made, numeric, ?_⟩
  have counted : outcome barCount m = (.ok m.size, m) := rfl
  have added : outcome (onStore (SeriesRef.unknown m.size start)) m =
      (.ok ⟨m.store.series.size⟩, { m with store := (m.store.alloc c (-1) .plain).2 }) := by
    rw [outcome_onStore, outcome_unknown plain made]
  rw [allocRegister, bind_ok started, bind_ok counted, bind_ok added]

variable {code : Code}

theorem setRegisterValue_eq_ok {u : Unit} (h : outcome (setRegisterValue code v) m = (.ok u, m')) :
    ∃ c r entries, m.context = some c ∧ m.Bound code.id? r ∧ (m.store.column r).set c.bar v = .ok entries ∧
      m' = { m with store := (m.store.setColumn r entries).setValid r c.bar } := by
  obtain ⟨e, failed⟩ | ⟨c, r, running, bound, same⟩ := setRegisterValue_cases code v m
  · cases failed.symm.trans h
  · obtain ⟨_, m₁, first, second⟩ := outcome_bind_eq_ok (same.symm.trans h)
    obtain ⟨s₁, set, rfl⟩ := onStore_eq_ok first
    obtain ⟨entries, stored, rfl⟩ := set_eq_ok set
    obtain ⟨s₂, moved, rfl⟩ := onStore_eq_ok second
    cases moved
    exact ⟨c, r, entries, running, bound, stored, rfl⟩

theorem setRegister_holds (h : outcome (setRegister scope code v) m = (.ok w, m')) :
    m'.holds code.id? = some w := by
  cases running : m.context with
  | none => cases (outcome_setRegister_idle running scope code v).symm.trans h
  | some c =>
    obtain ⟨rfl, rfl⟩ := setRegister_eq_ok h
    rw [holds_put _ _ _ _ (by simp [barNow, running]), if_pos rfl]

inductive Defining (scope : Scope) (code : Code) (expr : MachineM Value) (m : Machine) : Value → Machine → Prop where
  /-- It has nothing yet, and assignments change it. -/
  | alloc {w v : Value} {m₁ m' : Machine} (empty : ∀ r, ¬ m.Bound code.id? r) (own : code.id?.getD 0 ∈ scope.mutable)
    (evaluated : outcome expr m = (.ok w, m₁)) (kept : outcome (allocRegister scope code w) m₁ = (.ok v, m')) :
    Defining scope code expr m v m'
  /-- It has nothing yet, and no assignment changes it. -/
  | keep {v : Value} {m₁ m' : Machine} (empty : ∀ r, ¬ m.Bound code.id? r) (fixed : code.id?.getD 0 ∉ scope.mutable)
    (evaluated : outcome expr m = (.ok v, m₁)) (kept : outcome (setRegister scope code v) m₁ = (.ok v, m')) :
    Defining scope code expr m v m'
  /-- It has a series that is not up to date. -/
  | renew {r : SeriesRef} {bar : Int} {w x : Value} {m₁ m' : Machine} (bound : m.Bound code.id? r)
    (now : m.barNow = some bar) (old : m.store.valid r < bar) (evaluated : outcome expr m = (.ok w, m₁))
    (read : outcome (Machine.now w) m₁ = (.ok x, m₁)) (stored : outcome (setRegisterValue code x) m₁ = (.ok (), m')) :
    Defining scope code expr m (.series r) m'
  /-- It has a series that is up to date. -/
  | ready {r : SeriesRef} {bar : Int} (bound : m.Bound code.id? r) (now : m.barNow = some bar)
    (known : bar ≤ m.store.valid r) : Defining scope code expr m (.series r) m
  | single {v : Value} (held : m.holds code.id? = some v) (given : v ≠ .absent) (plain : ∀ r, v ≠ .series r) :
    Defining scope code expr m v m

def Alone {α : Type} (code : Code) (x : MachineM α) : Prop :=
  Obeys (fun m m' => m'.holds code.id? = m.holds code.id?) x

theorem eval_alone (scope : Scope) {part : Code} {nodes : List Code} {id : Nat} (numbered : code.id? = some id)
    (fit : part.fits (nodes.take id)) : Alone code (eval scope part) := by
  intro m
  rw [numbered]
  exact (eval_leaves scope _ part fit m).holds id (List.length_take_le id nodes)

theorem alone_of_quiet {α : Type} {x : MachineM α} (quiet : Obeys Quiet x) (code : Code) : Alone code x := by
  intro m
  rw [holds, (quiet m).context, holds]

theorem Bound.read {r : SeriesRef} (bound : m.Bound code.id? r) (read : outcome (getRegister code) m = (.ok v, m')) :
    v = .series r := by
  obtain ⟨c, running, _⟩ := bound.mem
  rw [outcome_getRegister (by simp [barNow, running]), show m.holds code.id? = _ from bound] at read
  cases read
  rfl

theorem getRegister_absent (read : outcome (getRegister code) m = (.ok .absent, m)) (r : SeriesRef) :
    ¬ m.Bound code.id? r :=
  fun bound => nomatch bound.read read

theorem definition_cases (found : outcome (definition scope code expr) m = (.ok v, m')) :
    Defining scope code expr m v m' := by
  obtain ⟨held, read, found⟩ := (getRegister_reads code).bind_eq_ok found
  split at found
  next =>
    have empty := getRegister_absent read
    obtain ⟨w, m₁, evaluated, found⟩ := outcome_bind_eq_ok found
    split at found
    next own => exact .alloc empty (List.mem_of_elem_eq_true own) evaluated found
    next fixed =>
      cases (setRegister_eq_ok found).1
      exact .keep empty (fun mem => fixed (List.elem_eq_true_of_mem mem)) evaluated found
  next r =>
    have bound := getRegister_series read
    obtain ⟨bar, now, found⟩ := bar_reads.bind_eq_ok found
    obtain ⟨old, asked, found⟩ := (onStore_reads (outOfDate_reads r bar)).bind_eq_ok found
    have late : decide (m.store.valid r < bar) = old := Except.ok.inj (congrArg Prod.fst asked)
    split at found
    next out =>
      subst out
      have late : m.store.valid r < bar := of_decide_eq_true late
      obtain ⟨w, m₁, evaluated, found⟩ := outcome_bind_eq_ok found
      obtain ⟨x, read, found⟩ := (now_reads w).bind_eq_ok found
      obtain ⟨_, m₂, stored, found⟩ := outcome_bind_eq_ok found
      cases found
      exact .renew bound (bar_eq_ok now) late evaluated read stored
    next ready =>
      cases found
      refine .ready bound (bar_eq_ok now) (Int.not_lt.mp fun out => ready ?_)
      rw [← late]
      exact decide_eq_true out
  next h plain =>
    cases found
    exact .single (getRegister_holds read h) h plain

theorem allocRegister_eq_ok (h : outcome (allocRegister scope code v) m = (.ok w, m')) :
    ∃ n start r m₁, outcome (onStore (SeriesRef.unknown n start)) m = (.ok r, m₁) ∧ w = .series r ∧
      outcome (setRegister scope code (.series r)) m₁ = (.ok w, m') := by
  obtain ⟨start, _, h⟩ := (startValue_reads v).bind_eq_ok h
  obtain ⟨n, _, h⟩ := barCount_reads.bind_eq_ok h
  obtain ⟨r, m₁, made, h⟩ := outcome_bind_eq_ok h
  exact ⟨n, start, r, m₁, made, (setRegister_eq_ok h).1, h⟩

theorem definition_holds (alone : Alone code expr) (found : outcome (definition scope code expr) m = (.ok v, m')) :
    m'.holds code.id? = some v := by
  cases definition_cases found with
  | alloc _ _ _ kept =>
    obtain ⟨_, _, _, _, _, _, kept⟩ := allocRegister_eq_ok kept
    exact setRegister_holds kept
  | keep _ _ _ kept => exact setRegister_holds kept
  | renew bound _ _ evaluated _ stored =>
    obtain ⟨_, _, _, _, _, _, rfl⟩ := setRegisterValue_eq_ok stored
    have same : (outcome expr m).2.holds code.id? = m.holds code.id? := alone m
    rw [evaluated] at same
    exact same.trans bound
  | ready bound _ _ => exact bound
  | single held _ _ => exact held

theorem definition_absent (found : outcome (definition scope code expr) m = (.ok .absent, m')) :
    code.id?.getD 0 ∉ scope.mutable ∧ ∃ m₁, outcome expr m = (.ok .absent, m₁) := by
  cases definition_cases found with
  | alloc _ _ _ kept =>
    obtain ⟨_, _, _, _, _, series, _⟩ := allocRegister_eq_ok kept
    cases series
  | keep _ fixed evaluated _ => exact ⟨fixed, _, evaluated⟩
  | single _ h _ => exact (h rfl).elim

end Machine

end PineEngine
