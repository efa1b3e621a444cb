import PineEngine.Proofs.Quiet

/-! # Registers

`Machine.holds` is what a machine keeps for a number, and `Machine.barNow` the bar it is at. What the
operations on registers give and leave is said in these terms.
-/

namespace PineEngine.Machine

variable {id : Option Nat} {r : SeriesRef} {v w : Value} {c : Context} {bar : Int}

open Script Computation

def holds (m : Machine) (id : Option Nat) : Option Value :=
  m.context.bind fun c => (register? c id).map (·.value)

def Bound (m : Machine) (id : Option Nat) (r : SeriesRef) : Prop :=
  m.holds id = some (.series r)

def barNow (m : Machine) : Option Int :=
  m.context.map (·.bar)

def timesNow (m : Machine) : Option SeriesRef :=
  m.context.map (·.timestamps)

def put (m : Machine) (code : Code) (v : Value) : Machine :=
  { m with context := m.context.map fun c => { c with registers := putRegister c.registers code v } }

theorem find_putRegister (rs : List Register) (code : Code) (v : Value) (id : Option Nat) :
    ((putRegister rs code v).find? (·.code.id? == id)).map (·.value) =
      if code.id? = id then some v else (rs.find? (·.code.id? == id)).map (·.value) := by
  induction rs with
  | nil => by_cases same : code.id? = id <;> simp [putRegister, same]
  | cons r rest ih =>
    rw [putRegister]
    by_cases here : r.code.id? = code.id?
    · by_cases same : code.id? = id <;> simp [here, same]
    · by_cases found : r.code.id? = id
      · subst found
        simp [here, Ne.symm here]
      · simpa [here, found] using ih

variable {code : Code} {m m' : Machine}

theorem mem_putRegister {rs : List Register} {x : Register} (mem : x ∈ putRegister rs code v) :
    x.value = v ∨ x ∈ rs := by
  induction rs with
  | nil =>
    cases List.mem_singleton.mp mem
    exact .inl rfl
  | cons r rest ih =>
    rw [putRegister] at mem
    split at mem
    · rcases List.mem_cons.mp mem with rfl | mem
      · exact .inl rfl
      · exact .inr (.tail _ mem)
    · rcases List.mem_cons.mp mem with rfl | mem
      · exact .inr (.head _)
      · exact (ih mem).imp_right (List.mem_cons_of_mem r)

theorem Bound.mem (bound : m.Bound id r) :
    ∃ c, m.context = some c ∧ ∃ x ∈ c.registers, x.value = .series r := by
  obtain ⟨c, running, found⟩ := Option.bind_eq_some_iff.mp bound
  obtain ⟨x, here, value⟩ := Option.map_eq_some_iff.mp found
  exact ⟨c, running, x, List.mem_of_find?_eq_some here, value⟩

section Put

variable (m : Machine) (code : Code) (v : Value)

@[simp] theorem barNow_put : (m.put code v).barNow = m.barNow := by
  cases h : m.context <;> simp [put, barNow, h]

@[simp] theorem timesNow_put : (m.put code v).timesNow = m.timesNow := by
  cases h : m.context <;> simp [put, timesNow, h]

@[simp] theorem store_put : (m.put code v).store = m.store := rfl

theorem holds_put (id : Option Nat) (running : m.barNow.isSome) :
    (m.put code v).holds id = if code.id? = id then some v else m.holds id := by
  cases h : m.context with
  | none => simp [barNow, h] at running
  | some c =>
    simp only [put, holds, h, Option.map_some, Option.bind_some]
    exact find_putRegister c.registers code v id

end Put

theorem put_idle (idle : m.context = none) (code : Code) (v : Value) : m.put code v = m := by
  cases m
  cases idle
  rfl

theorem holds_put_ne (other : code.id? ≠ id) (m : Machine) (v : Value) :
    (m.put code v).holds id = m.holds id := by
  cases running : m.context with
  | none => rw [put_idle running]
  | some c => rw [holds_put _ _ _ _ (by simp [barNow, running]), if_neg other]

theorem holds_of_put (held : (m.put code v).holds id = some w) :
    code.id? = id ∧ v = w ∨ m.holds id = some w := by
  by_cases same : code.id? = id
  · cases running : m.context with
    | none => exact .inr (put_idle running code v ▸ held)
    | some c =>
      rw [holds_put _ _ _ _ (by simp [barNow, running]), if_pos same] at held
      exact .inl ⟨same, Option.some.inj held⟩
  · exact .inr ((holds_put_ne same m v).symm.trans held)

theorem Bound.put (bound : m.Bound id r)
    (same : code.id? = id → v = .series r) : (m.put code v).Bound id r := by
  obtain ⟨c, running, _⟩ := bound.mem
  rw [Bound, holds_put _ _ _ _ (by simp [barNow, running])]
  split
  next here => rw [same here]
  next => exact bound

theorem outcome_current (running : m.context = some c) : outcome current m = (.ok c, m) := by
  rw [current, get_bind, running]
  rfl

theorem outcome_current_none (idle : m.context = none) : outcome current m = (.error .member, m) := by
  rw [current, get_bind, idle]
  rfl

theorem current_eq_ok {α : Type} {f : Context → MachineM α} {a : α} (h : outcome (current >>= f) m = (.ok a, m')) :
    ∃ c, m.context = some c ∧ outcome (f c) m = (.ok a, m') := by
  cases running : m.context with
  | none =>
    rw [bind_error (outcome_current_none running)] at h
    cases h
  | some c => exact ⟨c, rfl, (bind_ok (outcome_current running)).symm.trans h⟩

theorem outcome_modifyContext (running : m.context = some c) (f : Context → Context) :
    outcome (modifyContext f) m = (.ok (), { m with context := some (f c) }) :=
  bind_ok (outcome_current running)

theorem outcome_modifyContext_none (idle : m.context = none) (f : Context → Context) :
    outcome (modifyContext f) m = (.error .member, m) :=
  bind_error (outcome_current_none idle)

theorem leaves_modifyContext (f : Context → Context) (m : Machine) :
    leaves (modifyContext f) m = { m with context := m.context.map f } := by
  cases running : m.context with
  | none => rw [leaves, outcome_modifyContext_none running, Option.map_none, ← running]
  | some c => rw [leaves, outcome_modifyContext running, Option.map_some]

theorem outcome_bar (now : m.barNow = some bar) : outcome Machine.bar m = (.ok bar, m) := by
  obtain ⟨c, running, rfl⟩ := Option.map_eq_some_iff.mp now
  rw [Machine.bar, bind_ok (outcome_current running)]
  rfl

theorem bar_eq_ok (h : outcome Machine.bar m = (.ok bar, m')) : m.barNow = some bar := by
  obtain ⟨c, running, h⟩ := current_eq_ok h
  cases h
  rw [barNow, running]
  rfl

theorem outcome_getRegister (running : m.barNow.isSome) (code : Code) :
    outcome (getRegister code) m = (.ok ((m.holds code.id?).getD .absent), m) := by
  cases h : m.context with
  | none => simp [barNow, h] at running
  | some c =>
    rw [getRegister, bind_ok (outcome_current h), holds, h]
    rfl

theorem getRegister_holds (read : outcome (getRegister code) m = (.ok v, m')) (h : v ≠ .absent) :
    m.holds code.id? = some v := by
  obtain ⟨c, running, read⟩ := current_eq_ok read
  have held : ((register? c code.id?).map (·.value)).getD .absent = v := Except.ok.inj (congrArg Prod.fst read)
  rw [holds, running, Option.bind_some]
  cases kept : (register? c code.id?).map (·.value) with
  | none =>
    rw [kept] at held
    exact (h held.symm).elim
  | some w =>
    rw [kept] at held
    exact congrArg some held

theorem getRegister_series (found : outcome (getRegister code) m = (.ok (.series r), m')) :
    m.Bound code.id? r :=
  getRegister_holds found nofun

theorem outcome_setRegister (running : m.barNow.isSome) (scope : Scope) (code : Code) (v : Value) :
    outcome (setRegister scope code v) m =
      (if scope.inLoop then .error .operands else .ok v, m.put code v) := by
  cases h : m.context with
  | none => simp [barNow, h] at running
  | some c =>
    rw [setRegister, bind_ok (outcome_modifyContext h _), put, h]
    cases scope.inLoop <;> rfl

theorem outcome_setRegister_idle (idle : m.context = none) (scope : Scope) (code : Code) (v : Value) :
    outcome (setRegister scope code v) m = (.error .member, m) :=
  bind_error (outcome_modifyContext_none idle _)

theorem leaves_setRegister (scope : Scope) (code : Code) (v : Value) (m : Machine) :
    leaves (setRegister scope code v) m = m.put code v := by
  cases running : m.context with
  | none => rw [leaves, outcome_setRegister_idle running, put_idle running]
  | some c => rw [leaves, outcome_setRegister (by simp [barNow, running])]

theorem setRegister_eq_ok {scope : Scope} (h : outcome (setRegister scope code v) m = (.ok w, m')) :
    w = v ∧ m' = m.put code v := by
  cases running : m.context with
  | none =>
    rw [outcome_setRegister_idle running] at h
    cases h
  | some c =>
    rw [outcome_setRegister (by simp [barNow, running])] at h
    obtain ⟨found, left⟩ := Prod.mk.inj h
    split at found <;> cases found
    exact ⟨rfl, left.symm⟩

/-- What is done to store a value at a bar of a series. -/
def storeAt (r : SeriesRef) (bar : Int) (v : Value) : MachineM Unit := do
  onStore (r.set bar v)
  onStore (r.setValid bar)

theorem setRegisterValue_cases (code : Code) (v : Value) (m : Machine) :
    (∃ e, outcome (setRegisterValue code v) m = (.error e, m)) ∨ ∃ c r, m.context = some c ∧ m.Bound code.id? r ∧
      outcome (setRegisterValue code v) m = outcome (storeAt r c.bar v) m := by
  cases running : m.context with
  | none => exact .inl ⟨_, bind_error (outcome_current_none running)⟩
  | some c =>
    rw [setRegisterValue, bind_ok (outcome_current running)]
    split
    next => exact .inl ⟨_, rfl⟩
    next r here =>
      refine .inr ⟨c, r, rfl, ?_, rfl⟩
      rw [Bound, holds, running, Option.bind_some, here]
      rfl
    next => exact .inl ⟨_, rfl⟩

theorem holds_modifyBar (m : Machine) (f : Int → Int) (id : Option Nat) :
    holds { m with context := m.context.map fun c => { c with bar := f c.bar } } id = m.holds id := by
  rw [holds, holds]
  cases m.context <;> rfl

end PineEngine.Machine
