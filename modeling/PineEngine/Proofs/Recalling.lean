import PineEngine.Proofs.Choices
import PineEngine.Proofs.Performing

/-! # Evaluation gives what code stands for

A machine is `Faithful` if each of its registers holds what its node stands for on the market of the machine, at whatever
bar it is. Evaluation of plain code keeps a machine faithful, gives what the code stands for, and keeps registers for the
nodes that `Code.keeps` lists. So nothing more is kept when it is evaluated again.
-/

namespace PineEngine

open Script Builtin Computation List SeriesRef Code Option

def Script.Code.isBuiltin : Code → Bool
  | .builtin _ _ _ _ => true
  | _ => false

namespace Machine

/-- What a machine keeps, in the order in which it was first set. -/
def registers (m : Machine) : List Register :=
  (m.context.map (·.registers)).getD []

/-- The registers of something else than a built-in variable. -/
def ofScript (rs : List Register) : List Register :=
  rs.filter fun r => !r.code.isBuiltin

def Numbered (nodes : List Code) (code : Code) : Prop :=
  ∃ id, code.id? = some id ∧ nodes[id]? = some code

section Registers

variable {nodes : List Code} {rs : List Register} {code : Code}

variable (numbered : Numbered nodes code)

include numbered

theorem Numbered.eq {other : Code} (numbered' : Numbered nodes other) (same : other.id? = code.id?) : other = code := by
  obtain ⟨id, named, known⟩ := numbered
  obtain ⟨id', named', known'⟩ := numbered'
  cases named'.symm.trans (same.trans named)
  exact Option.some.inj (known'.symm.trans known)

theorem mem_put (all : ∀ r ∈ rs, Numbered nodes r.code) {v : Value} {r : Register}
    (mem : r ∈ putRegister rs code v) : r = ⟨code, v⟩ ∨ r ∈ rs := by
  induction rs with
  | nil => exact .inl (mem_singleton.mp mem)
  | cons q rs ih =>
    rw [putRegister] at mem
    split at mem
    next same =>
      rcases mem_cons.mp mem with rfl | mem
      · rw [numbered.eq (all q (.head _)) (eq_of_beq same)]
        exact .inl rfl
      · exact .inr (.tail _ mem)
    next =>
      rcases mem_cons.mp mem with rfl | mem
      · exact .inr (.head _)
      · rcases ih (fun r mem => all r (.tail _ mem)) mem with new | old
        · exact .inl new
        · exact .inr (.tail _ old)

theorem ofScript_put (all : ∀ r ∈ rs, Numbered nodes r.code) (v : Value) : ofScript (putRegister rs code v) =
      if code.isBuiltin then ofScript rs else putRegister (ofScript rs) code v := by
  induction rs with
  | nil => cases builtin : code.isBuiltin <;> simp [ofScript, putRegister, builtin]
  | cons q rs ih =>
    have ih := ih fun r mem => all r (.tail _ mem)
    by_cases same : q.code.id? = code.id?
    · have eq := numbered.eq (all q (.head _)) same
      cases builtin : code.isBuiltin <;> simp [ofScript, putRegister, eq, builtin]
    · cases builtin : code.isBuiltin <;> cases other : q.code.isBuiltin <;>
        simpa [ofScript, putRegister, builtin, other, same] using ih

end Registers

theorem holds_eq (m : Machine) (id : Option Nat) :
    m.holds id = (m.registers.find? (·.code.id? == id)).map (·.value) := by
  cases h : m.context <;> simp [holds, registers, register?, h]

theorem registers_put {m : Machine} (running : m.barNow.isSome) (code : Code) (v : Value) :
    (m.put code v).registers = putRegister m.registers code v := by
  cases h : m.context with
  | none => simp [barNow, h] at running
  | some c => simp [registers, put, h]

variable {nodes : List Code} {n : Nat} {m m' : Machine} {code : Code} {v : Value} {x : Operand}

theorem putRegister_absent {rs : List Register} (absent : ∀ x ∈ rs, ¬ (x.code.id? == code.id?) = true) :
    putRegister rs code v = rs ++ [⟨code, v⟩] := by
  induction rs with
  | nil => rfl
  | cons x rs ih =>
    obtain ⟨here, rest⟩ := forall_mem_cons.mp absent
    rw [putRegister, if_neg here, ih rest]
    rfl

theorem registers_put_absent (running : m.barNow.isSome) (absent : m.holds code.id? = none) :
    (m.put code v).registers = m.registers ++ [⟨code, v⟩] := by
  rw [holds_eq, map_eq_none_iff, find?_eq_none] at absent
  rw [registers_put running, putRegister_absent absent]

theorem mem_of_holds (numbered : Numbered nodes code) (all : ∀ x ∈ m.registers, Numbered nodes x.code)
    (held : m.holds code.id? = some v) : ⟨code, v⟩ ∈ m.registers := by
  rw [holds_eq, map_eq_some_iff] at held
  obtain ⟨x, found, rfl⟩ := held
  have mem := mem_of_find?_eq_some found
  have same : x.code.id? = code.id? := by simpa using find?_some found
  rw [← numbered.eq (all x mem) same]
  exact mem

theorem Sound.opens_register {apart : Nat → Prop} {x : Register} {r : SeriesRef} (sound : m.Sound apart)
    (mem : x ∈ m.registers) (value : x.value = .series r) : m.store.Open apart r := by
  rw [Machine.registers] at mem
  cases running : m.context with
  | none =>
    rw [running] at mem
    cases mem
  | some c =>
    rw [running] at mem
    exact sound.held c running x mem r value

def Scope.plain : Scope := { mutable := [] }

def kept (m : Machine) : List (Option Nat) :=
  ((ofScript m.registers).map (·.code.id?)).reverse

/-- A machine at one of `n` bars whose registers hold what their nodes stand for. -/
structure Faithful (nodes : List Code) (n : Nat) (m : Machine) : Prop where
  bars : m.market.Bars n
  bar : ∃ b : Nat, m.barNow = some (b : Int) ∧ b < n
  broker : m.broker = none
  inputs : m.userInputs = .absent
  level : m.store.Level n
  times : ∀ r, m.timesNow = some r → r.id < m.store.series.size
  numbered : ∀ x ∈ m.registers, Numbered nodes x.code
  present : ∀ x ∈ m.registers, ∀ r, x.value = .series r → r.id < m.store.series.size
  single : 2 ≤ n → ofScript m.registers = m.registers
  stands : ∀ x ∈ ofScript m.registers, ∃ y, x.code.denote m.market = .ok y ∧ m.store.Stands x.value y
  settled : ∀ x ∈ ofScript m.registers, x.code.keeps ⊆ m.kept

/-- What evaluation gives and leaves: the machine is faithful, and has kept registers for some nodes. -/
structure Yields {α β : Type} (nodes : List Code) (n : Nat) (P : Store → α → β → Prop) (ids : List (Option Nat))
    (m : Machine) (y : β) (v : α) (m' : Machine) : Prop where
  faithful : m'.Faithful nodes n
  market : m'.market = m.market
  grows : m.store.Grows m'.store
  registers : ofScript m.registers <+: ofScript m'.registers
  kept : m'.kept = ids ∪ m.kept
  holds : P m'.store v y

namespace Faithful

variable (faithful : m.Faithful nodes n)

include faithful

theorem positive : 1 ≤ n := by
  obtain ⟨b, _, low⟩ := faithful.bar
  omega

theorem running : m.barNow.isSome := by
  obtain ⟨b, now, _⟩ := faithful.bar
  rw [now]
  rfl

theorem move {s : Store} (level : s.Level n) (size : m.store.series.size ≤ s.series.size)
    (same : ∀ x ∈ m.registers, ∀ y, m.store.Stands x.value y → s.Stands x.value y) :
    Faithful nodes n { m with store := s } where
  bars := faithful.bars
  bar := faithful.bar
  broker := faithful.broker
  inputs := faithful.inputs
  level := level
  times r here := Nat.lt_of_lt_of_le (faithful.times r here) size
  numbered := faithful.numbered
  present x mem r value := Nat.lt_of_lt_of_le (faithful.present x mem r value) size
  single := faithful.single
  stands x mem := by
    obtain ⟨y, denoted, stands⟩ := faithful.stands x mem
    exact ⟨y, denoted, same x (mem_of_mem_filter mem) y stands⟩
  settled := faithful.settled

theorem grow {s : Store} (level : s.Level n) (grows : m.store.Grows s) : Faithful nodes n { m with store := s } :=
  faithful.move level grows.series.size_le fun _ _ _ stands => stands.grow faithful.level grows

theorem sound : m.Sound fun _ => False := by
  have opens {r : SeriesRef} (present : r.id < m.store.series.size) : m.store.Open (fun _ => False) r :=
    ⟨present, faithful.level.inside present, id⟩
  refine ⟨fun _ none => none.elim, fun c running => opens (faithful.times _ ?_),
    fun c running x mem r value => opens (faithful.present x ?_ r value), ?_, ?_⟩
  · rw [timesNow, running]
    rfl
  · rw [Machine.registers, running]
    exact mem
  · intro title r h
    rw [faithful.inputs] at h
    cases h
  · rintro r ⟨b, broker, _⟩
    rw [faithful.broker] at broker
    cases broker

variable (numbered : Numbered nodes code)

include numbered

theorem held (plain : code.isBuiltin = false) (held : m.holds code.id? = some v) :
    (∃ x, code.denote m.market = .ok x ∧ m.store.Stands v x) ∧ code.keeps ⊆ m.kept := by
  have mem : ⟨code, v⟩ ∈ ofScript m.registers :=
    mem_filter.mpr ⟨mem_of_holds numbered faithful.numbered held, by simp [plain]⟩
  exact ⟨faithful.stands _ mem, faithful.settled _ mem⟩

theorem put (plain : code.isBuiltin = false)
    (absent : m.holds code.id? = none) (denoted : code.denote m.market = .ok x) (stands : m.store.Stands v x)
    (settled : code.keeps ⊆ code.id? :: m.kept) : Yields nodes n Store.Stands [code.id?] m x v (m.put code v) := by
  have registers : (m.put code v).registers = m.registers ++ [⟨code, v⟩] := registers_put_absent faithful.running absent
  have shown : ofScript (m.put code v).registers = ofScript m.registers ++ [⟨code, v⟩] := by
    rw [registers, ofScript, filter_append]
    simp [plain, ofScript]
  have kept : (m.put code v).kept = code.id? :: m.kept := by
    rw [Machine.kept, shown]
    simp [Machine.kept]
  have fresh : code.id? ∉ m.kept := by
    intro mem
    obtain ⟨x, member, same⟩ := mem_map.mp (mem_reverse.mp mem)
    rw [holds_eq, map_eq_none_iff, find?_eq_none] at absent
    exact absent x (mem_of_mem_filter member) (beq_iff_eq.mpr same)
  have either {P : Register → Prop} {rs : List Register} (old : ∀ x ∈ rs, P x) (new : P ⟨code, v⟩) :
      ∀ x ∈ rs ++ [⟨code, v⟩], P x :=
    forall_mem_append.mpr ⟨old, fun x mem => mem_singleton.mp mem ▸ new⟩
  refine ⟨⟨faithful.bars, by simpa using faithful.bar, faithful.broker, faithful.inputs, faithful.level,
    by simpa using faithful.times, ?_, ?_, fun many => ?_, ?_, ?_⟩, rfl, Std.Refl.refl _, ?_, ?_, stands⟩
  · rw [registers]
    exact either faithful.numbered numbered
  · rw [registers]
    refine either faithful.present fun r same => ?_
    cases same
    cases stands with
    | single single => cases single
    | series present => exact present
  · rw [shown, registers, faithful.single many]
  · rw [shown]
    exact either faithful.stands ⟨x, denoted, stands⟩
  · rw [shown, kept]
    exact either (fun x mem => Subset.trans (faithful.settled x mem) (subset_cons_self ..)) settled
  · rw [shown]
    exact prefix_append ..
  · rw [kept, cons_union, nil_union, insert_of_not_mem fresh]

theorem putBuiltin (builtin : code.isBuiltin = true)
    (one : n < 2) (stands : m.store.Stands v x) : Yields nodes n Store.Stands [] m x v (m.put code v) := by
  have registers : (m.put code v).registers = putRegister m.registers code v := registers_put faithful.running code v
  have shown : ofScript (m.put code v).registers = ofScript m.registers := by
    rw [registers, ofScript_put numbered faithful.numbered, if_pos builtin]
  have kept : (m.put code v).kept = m.kept := by rw [Machine.kept, shown, Machine.kept]
  have either {y : Register} (mem : y ∈ (m.put code v).registers) : y = ⟨code, v⟩ ∨ y ∈ m.registers :=
    mem_put numbered faithful.numbered (registers ▸ mem)
  refine ⟨⟨faithful.bars, by simpa using faithful.bar, faithful.broker, faithful.inputs, faithful.level,
    by simpa using faithful.times, fun y mem => ?_, fun y mem r value => ?_, fun many => by omega, ?_, ?_⟩, rfl,
    Std.Refl.refl _, ?_, kept, stands⟩
  · rcases either mem with rfl | old
    · exact numbered
    · exact faithful.numbered y old
  · rcases either mem with rfl | old
    · cases value
      cases stands with
      | single single => cases single
      | series present => exact present
    · exact faithful.present y old r value
  · rw [shown]
    exact faithful.stands
  · rw [shown, kept]
    exact faithful.settled
  · exact shown ▸ prefix_refl _

end Faithful

namespace Yields

variable {α β γ δ : Type} {P : Store → α → β → Prop} {Q : Store → γ → δ → Prop} {ids ids' : List (Option Nat)}
  {e : Except Fault β} {a : α} {b : β}

theorem pure (faithful : m.Faithful nodes n) (holds : P m.store a b) :
    Answers (pure a) m (.ok b) (Yields nodes n P [] m) :=
  .pure ⟨faithful, rfl, Std.Refl.refl _, prefix_refl _, rfl, holds⟩

theorem of_produces (faithful : m.Faithful nodes n) (produces : Produces n m x v m') :
    Yields nodes n Store.Stands [] m x v m' := by
  obtain ⟨same, grows, level, stands⟩ := produces
  rw [same]
  exact ⟨faithful.grow level grows, rfl, grows, prefix_refl _, rfl, stands⟩

theorem trans {d : δ} {c : γ} {m'' : Machine} (first : Yields nodes n P ids m b a m')
    (second : Yields nodes n Q ids' m' d c m'') : Yields nodes n Q (ids' ++ ids) m d c m'' :=
  ⟨second.faithful, second.market.trans first.market, Trans.trans first.grows second.grows,
    first.registers.trans second.registers, by rw [second.kept, first.kept]; exact foldr_append.symm,
    second.holds⟩

theorem also {d : δ} {c : γ} (yields : Yields nodes n P ids m b a m') (holds : Q m'.store c d) :
    Yields nodes n Q ids m d c m' :=
  ⟨yields.faithful, yields.market, yields.grows, yields.registers, yields.kept, holds⟩

theorem bind {f : α → MachineM γ} {g : β → Except Fault δ} {x : MachineM α}
    (first : Answers x m e (Yields nodes n P ids m))
    (rest : ∀ b a m', e = .ok b → outcome x m = (.ok a, m') → Yields nodes n P ids m b a m' →
      Answers (f a) m' (g b) (Yields nodes n Q ids' m')) :
    Answers (x >>= f) m (e >>= g) (Yields nodes n Q (ids' ++ ids) m) :=
  first.bind_ran fun b a m' h ran yields =>
    (rest b a m' h ran yields).mono fun _ _ _ after => yields.trans after

theorem andThen {f : α → MachineM Value} {g : β → Except Fault Operand} {x : MachineM α}
    (first : Answers x m e (Yields nodes n P ids m))
    (rest : ∀ b a m', e = .ok b → Yields nodes n P ids m b a m' → Answers (f a) m' (g b) (Produces n m')) :
    Answers (x >>= f) m (e >>= g) (Yields nodes n Store.Stands ids m) :=
  first.bind_ran fun b a m' h _ yields =>
    (rest b a m' h yields).mono fun _ _ _ produces => yields.trans (.of_produces yields.faithful produces)

theorem union_of_subset {ks : List (Option Nat)} (subset : ids ⊆ ks) : ids ∪ ks = ks := by
  induction ids with
  | nil => rfl
  | cons i ids ih =>
    obtain ⟨here, rest⟩ := cons_subset.mp subset
    rw [cons_union, ih rest, insert_of_mem here]

theorem again (faithful : m.Faithful nodes n) (subset : ids ⊆ m.kept) (holds : P m.store a b) :
    Yields nodes n P ids m b a m :=
  ⟨faithful, rfl, Std.Refl.refl _, prefix_refl _, (union_of_subset subset).symm, holds⟩

end Yields

theorem builtinVariable_answers (faithful : m.Faithful nodes n) (numbered : Numbered nodes code)
    (builtin : code.isBuiltin = true) {s : Source} (price : s ≠ .time) :
    Answers (builtinVariable .plain code (.source s)) m (prices m.market s) (Yields nodes n Store.Stands [] m) := by
  have source := source_produces faithful.level faithful.bars price
  obtain ⟨b, now, low⟩ := faithful.bar
  refine .step (outcome_bar now) ?_
  cases b with
  | zero =>
    refine .andThen source fun x v m₁ produces => ?_
    have first := Yields.of_produces faithful produces
    cases produces.stands with
    | single single =>
      cases v with
      | series r => cases single
      | _ => exact .pure first
    | @series r c present column =>
      have stands : m₁.store.Stands (.series r) (.column c) := .series present column
      refine .step (outcome_reading (outcome_valid r _)) ?_
      rw [first.faithful.level.valid r present]
      split
      next zero =>
        have one : n < 2 := by simp at zero; omega
        refine .step (outcome_setRegister first.faithful.running .plain code _) (.pure ?_)
        exact first.trans (first.faithful.putBuiltin numbered builtin one stands)
      next => exact .pure first
  | succ b =>
    have absent : m.holds code.id? = none := by
      cases held : m.holds code.id? with
      | none => rfl
      | some v =>
        have mem := mem_of_holds numbered faithful.numbered held
        rw [← faithful.single (by omega)] at mem
        have shown := (mem_filter.mp mem).2
        rw [builtin] at shown
        cases shown
    refine .step (outcome_getRegister faithful.running code) ?_
    rw [absent]
    exact source.mono fun _ _ _ produces => .of_produces faithful produces

theorem outcome_definition_held {expr : MachineM Value} {known : Option Value} (faithful : m.Faithful nodes n)
    (held : m.holds code.id? = some v) (stands : m.store.Stands v x) (meets : x.Meets n known) :
    outcome (definition .plain code expr) m = (.ok v, m) := by
  obtain ⟨b, now, low⟩ := faithful.bar
  rw [definition, bind_ok (outcome_getRegister faithful.running code), held]
  cases meets with
  | number number =>
    cases stands
    cases v <;> cases number <;> rfl
  | column =>
    cases stands with
    | @series r c present column =>
      have dated : outcome (r.outOfDate b) m.store = (.ok false, m.store) := by
        have late : ¬ ((n : Int) - 1 < b) := by omega
        rw [outOfDate, bind_ok (outcome_valid r _), faithful.level.valid r present,
          outcome_pure, decide_eq_false late]
      show outcome (Machine.bar >>= _) m = _
      rw [bind_ok (outcome_bar now), bind_ok (outcome_reading dated)]
      rfl

variable {id : Nat} {c e : Code}

theorem holds_of_leaves {α : Type} {y : MachineM α} {a : α} (leaves : Obeys (Leaves id) y)
    (ran : outcome y m = (.ok a, m')) : m'.holds (some id) = m.holds (some id) := by
  have same := (leaves m).holds id (Nat.le_refl id)
  rw [Computation.leaves, ran] at same
  exact same

def Denotes (nodes : List Code) (n : Nat) (c : Code) : Prop :=
  ∀ m : Machine, m.Faithful nodes n → Answers (eval .plain c) m (c.denote m.market) (Yields nodes n Store.Stands c.keeps m)

theorem Denotes.after {α β : Type} {P : Store → α → β → Prop} {ids : List (Option Nat)} {a : α} {b : β}
    (denotes : Denotes nodes n c) (yields : Yields nodes n P ids m b a m') :
    Answers (eval .plain c) m' (c.denote m.market) (Yields nodes n Store.Stands c.keeps m') :=
  yields.market ▸ denotes m' yields.faithful

theorem define_denotes {line : Line} {name : String} (known : nodes[id]? = some (.define line id name e))
    (plain : e.plain) (body : Denotes nodes n e) (leaves : Obeys (Leaves id) (eval .plain e)) :
    Denotes nodes n (.define line id name e) := by
  intro m faithful
  have numbered : Numbered nodes (.define line id name e) := ⟨id, rfl, known⟩
  rw [eval]
  cases held : m.holds (some id) with
  | some v =>
    obtain ⟨⟨x, denoted, stands⟩, settled⟩ := faithful.held numbered rfl held
    rw [denoted]
    exact ⟨v, m, outcome_definition_held faithful held stands (denote_meets faithful.bars e plain denoted),
      .again faithful settled stands⟩
  | none =>
    refine .step (outcome_getRegister faithful.running _) ?_
    rw [show m.holds (Code.define line id name e).id? = none from held]
    refine (body m faithful).andThen_ran fun x v m₁ denoted ran yields => ?_
    have absent : m₁.holds (some id) = none := (holds_of_leaves leaves ran).trans held
    refine ⟨v, _, (outcome_setRegister yields.faithful.running .plain _ v), ?_⟩
    refine yields.trans (yields.faithful.put numbered rfl absent (yields.market ▸ denoted) yields.holds ?_)
    exact cons_subset_cons _ (yields.kept ▸ fun _ mem => mem_union_iff.mpr (.inl mem))

theorem repeated_answers (level : m.store.Level n) (stands : m.store.Stands v x) :
    Answers (repeated n v) m (x.asColumn n) fun c r m' =>
      m' = { m with store := m'.store } ∧ Store.Makes n m.store c r m'.store := by
  cases stands with
  | series present column => exact .pure ⟨rfl, Std.Refl.refl _, level, present, column⟩
  | single single =>
    have made := onStore_answers (m := m) ((replicate_adds n single).mono fun _ _ _ adds => adds.makes level)
    cases v with
    | series r => cases single
    | _ => exact made

theorem copied_answers (level : m.store.Level n) (stands : m.store.Stands v x) :
    Answers (copied n v) m (x.asColumn n) fun c r m' =>
      m' = { m with store := m'.store } ∧ Store.Adds n ((n : Int) - 1) m.store c r m'.store := by
  cases stands with
  | @series r c present column =>
    subst column
    exact onStore_answers (mapColumn_adds level present (f := .ok) fun d same =>
      Except.ok.inj same ▸ level.column r present)
  | single single =>
    have made := onStore_answers (m := m) (replicate_adds n single (s := m.store))
    cases v with
    | series r => cases single
    | _ => exact made

/-- What a choice that is settled for all bars does once its branches are evaluated: a series is written to that is
    neither the condition nor the second branch. -/
theorem replace_answers {c r : SeriesRef} (level : m.store.Level n) (presentC : c.id < m.store.series.size)
    (presentR : r.id < m.store.series.size) (stands : m.store.Stands v x) (notC : c ≠ r) (notB : v ≠ .series r) :
    Answers (do
      let other ← repeated n v
      let cond ← onStore c.finite
      onStore (r.replaceUnless cond other n)
      let valid ← onStore c.valid
      onStore (r.setValid valid)
      pure (Value.series r)) m (do
      let other ← x.asColumn n
      (Column.replaceUnless (m.store.column c).finite other (range n) (m.store.column r)).map Operand.column)
      fun y w m' => w = Value.series r ∧ ∃ d s, y = .column d ∧ m' = { m with store := s.setColumn r d } ∧
        m.store.Grows s ∧ s.Level n ∧ d.Level n := by
  have opens {s : Store} {q : SeriesRef} (level : s.Level n) (present : q.id < s.series.size) (ne : q ≠ r) :
      s.Open (· = r.id) q := by
    refine ⟨present, level.inside present, fun same => ne ?_⟩
    rw [level.head_column present] at same
    exact congrArg SeriesRef.mk same
  have inside {s : Store} (level : s.Level n) (present : r.id < s.series.size) (k : Nat) (same : k = r.id) :
      k < s.columns.size := by
    rw [same, level.size]
    exact present
  have openB (q : SeriesRef) (found : v = .series q) : m.store.Open (· = r.id) q := by
    subst found
    cases stands with
    | single single => cases single
    | series present => exact opens level present fun same => notB (congrArg Value.series same)
  refine .bind_ran (repeated_answers level stands) fun other o m₁ _ ran ⟨same₁, makes₁⟩ => ?_
  obtain ⟨_, openOther, _⟩ := repeated_eq_ok 0 openB (inside level presentR) ran
  have presentC₁ := makes₁.grows.series.lt presentC
  have presentR₁ := makes₁.grows.series.lt presentR
  obtain ⟨cond, m₂, ran, same₂, makes₂⟩ := onStore_answers (m := m₁) (finite_makes makes₁.level presentC₁)
  obtain ⟨_, openCond, _⟩ := finite_eq_ok (opens makes₁.level presentC₁ notC) (inside makes₁.level presentR₁)
    (store_of_onStore ran)
  replace openOther := openOther.spares (makes₂.grows.spares (inside makes₁.level presentR₁))
  have presentR₂ := makes₂.grows.series.lt presentR₁
  have presentC₂ := makes₂.grows.series.lt presentC₁
  have own : (m₂.store.head r).column = r.id := makes₂.level.head_column presentR₂
  have replaces := replaceUnless_replaces (range n) (makes₂.level.inside presentR₂)
    (own.symm ▸ openCond.free) (own.symm ▸ openOther.free)
  rw [makes₂.column, level.column_eq makes₁.grows presentC, makes₁.level.column_eq makes₂.grows makes₁.present,
    makes₁.column, makes₁.level.column_eq makes₂.grows presentR₁, level.column_eq makes₁.grows presentR] at replaces
  refine .map (.step ran ?_)
  unfold Replaces at replaces
  cases made : Column.replaceUnless (m.store.column c).finite other (range n) (m.store.column r) with
  | error e =>
    intro w m' ran
    obtain ⟨_, m₃, ran, _⟩ := outcome_bind_eq_ok ran
    obtain ⟨s, ran, _⟩ := onStore_eq_ok ran
    rw [made] at replaces
    cases (congrArg Prod.fst ran).symm.trans replaces
  | ok d =>
    rw [made] at replaces
    have leveled : d.Level n := Column.replaceUnless_level (level.column r presentR)
      (makes₁.column ▸ makes₁.level.column o makes₁.present) made
    have after : (m₂.store.setColumn r d).Level n := makes₂.level.setColumn presentR₂ leveled
    -- The valid index is set to what it is already.
    have marked : outcome (r.setValid ((m₂.store.setColumn r d).valid c)) (m₂.store.setColumn r d) =
        (.ok (), m₂.store.setColumn r d) := by
      rw [after.valid c presentC₂]
      exact congrArg (Prod.mk _) (after.setValid presentR₂)
    have replaced : outcome (onStore (r.replaceUnless cond o n)) m₂ =
        (.ok (), { m₂ with store := m₂.store.setColumn r d }) := by
      rw [outcome_onStore, replaceUnless, replaces]
    refine .step replaced (.step (outcome_reading (outcome_valid c _)) (.step (outcome_reading marked) ?_))
    exact .pure ⟨rfl, d, m₂.store, rfl, by rw [same₂, same₁], Trans.trans makes₁.grows makes₂.grows, makes₂.level,
      leveled⟩

/-- A choice that is settled for all bars. The series is written to after the second branch was evaluated, but no
    register holds it by then. -/
theorem chooseAll_answers (faithful : m.Faithful nodes n) {c : SeriesRef} (present : c.id < m.store.series.size)
    {y : Code} (first : Denotes nodes n y) (second : Denotes nodes n e)
    (keeps : ∀ apart, Keeps apart [] (eval .plain e) ([·])) :
    Answers (chooseAll c (eval .plain y) (eval .plain e)) m (do
      let d ← (← y.denote m.market).asColumn n
      let other ← (← e.denote m.market).asColumn n
      (Column.replaceUnless (m.store.column c).finite other (range n) d).map Operand.column)
      (Yields nodes n Store.Stands (e.keeps ++ y.keeps) m) := by
  have length : outcome c.length m.store = (.ok n, m.store) := by
    rw [outcome_length, (faithful.level.column c present).toFlat.length]
  refine .step (outcome_reading length) (.bind (first m faithful) fun x v m₁ yields₁ => ?_)
  have level₁ := yields₁.faithful.level
  refine .bind (copied_answers level₁ yields₁.holds) fun d r m₂ ⟨same₂, adds⟩ => ?_
  have makes := adds.makes level₁
  obtain ⟨rfl, _, origin, stored⟩ := adds
  have produces : Produces n m₁ (.column d) (.series _) m₂ :=
    ⟨same₂, makes.grows, makes.level, .series makes.present makes.column⟩
  have yields₂ := yields₁.trans (.of_produces yields₁.faithful produces)
  have reserved : m₂.Sound (· = m₁.store.columns.size) := by
    rw [same₂, stored]
    exact yields₁.faithful.sound.reserve d _ origin
  refine .bind_ran (second.after yields₂) fun z b m₃ _ right after => ?_
  obtain ⟨follows, gave⟩ := keeps _ m₂ reserved nofun
  rw [right] at follows gave
  have yields₃ := yields₂.trans after
  have level₃ := after.faithful.level
  have grows₃ : m₁.store.Grows m₃.store := Trans.trans makes.grows after.grows
  have older : c.id < m₁.store.series.size := yields₁.grows.series.lt present
  -- The column of the new series is set apart: no register of the machine and no branch holds it.
  have apart {q : SeriesRef} (opens : m₃.store.Open (· = m₁.store.columns.size) q) : q.id ≠ m₁.store.series.size := by
    rw [← level₃.head_column opens.present, ← level₁.size]
    exact opens.free
  have notC : c ≠ ⟨m₁.store.series.size⟩ := by
    rintro rfl
    exact Nat.lt_irrefl _ older
  have notB : b ≠ .series ⟨m₁.store.series.size⟩ := by
    rintro rfl
    exact apart (gave _ rfl _ (mem_singleton_self _)) rfl
  have replaces := replace_answers (r := ⟨m₁.store.series.size⟩) level₃
    (grows₃.series.lt older) (after.grows.series.lt makes.present)
    after.holds notC notB
  rw [level₁.column_eq grows₃ older, faithful.level.column_eq yields₁.grows present,
    makes.level.column_eq after.grows makes.present, makes.column] at replaces
  refine replaces.mono ?_
  rintro _ _ m' ⟨rfl, d', s, rfl, rfl, grows, level, leveled⟩
  have grown : m₂.store.Grows s := Trans.trans after.grows grows
  have there : (SeriesRef.mk m₁.store.series.size).id < s.series.size := grown.series.lt makes.present
  have added : m₁.store.Added s ⟨m₁.store.series.size⟩ :=
    ⟨⟨there, Nat.le_refl _, Nat.le_of_eq (level₁.size.trans (level.head_column there).symm), level.inside there⟩,
      Trans.trans grows₃ grows⟩
  refine ⟨yields₃.faithful.move (level.setColumn there leveled) grows.series.size_le ?_, yields₃.market,
    Trans.trans yields₁.grows (added.setColumn d').grows, yields₃.registers, yields₃.kept, .series there ?_⟩
  · intro x mem y stands
    generalize value : x.value = w at stands
    cases stands with
    | single single => exact .single single
    | @series q c presentQ column =>
      have other : q ≠ ⟨m₁.store.series.size⟩ := by
        rintro rfl
        exact apart (follows.sound.opens_register mem value) rfl
      have thereQ := grows.series.lt presentQ
      refine .series thereQ ?_
      rw [level.column_setColumn there thereQ, if_neg other, level₃.column_eq grows presentQ, column]
  · rw [level.column_setColumn there there, if_pos rfl]

/-- A choice takes the branch of a number, and is settled for all bars on a series. If its register is filled, the branch
    of the current bar is evaluated once more. -/
theorem choice_denotes {line : Line} {y : Code} {inline : Bool}
    (known : nodes[id]? = some (.choice line id c y (some e) inline))
    (plain : (Code.choice line id c y (some e) inline).plain) (asks : Denotes nodes n c) (first : Denotes nodes n y)
    (second : Denotes nodes n e) (branchYes : Branch id (eval .plain y)) (branchNo : Branch id (eval .plain e)) :
    Denotes nodes n (.choice line id c y (some e) inline) := by
  intro m faithful
  have numbered : Numbered nodes (.choice line id c y (some e) inline) := ⟨id, rfl, known⟩
  have parts := plain
  simp only [Code.plain, Bool.and_eq_true] at parts
  refine .bind_ran (asks m faithful) fun cond v m₁ denoted asked yields₁ => ?_
  have faithful₁ := yields₁.faithful
  have meets := denote_meets faithful.bars c parts.1.1.1 denoted
  cases constant : c.constant? with
  | some w =>
    rw [constant] at meets
    obtain ⟨number⟩ := meets
    cases yields₁.holds
    have decided : choose .plain (.choice line id c y (some e) inline) inline v (eval .plain y) (eval .plain e) =
        (liftM (conditionHolds v) >>= fun holds => branch holds (eval .plain y) (eval .plain e) : MachineM Value) := by
      cases v <;> cases number <;> rfl
    have takes {b : Code} (denotes : Denotes nodes n b) : Answers (eval .plain b) m₁ (b.denote m.market)
        (Yields nodes n Store.Stands (b.keeps ++ c.keeps) m) :=
      (denotes.after yields₁).mono fun _ _ _ => yields₁.trans
    rw [decided, Code.keeps, constant]
    refine .read (outcome_liftM _ m₁) fun holds told => ?_
    rw [map_some, told]
    cases holds with
    | true => exact takes first
    | false => exact takes second
  | none =>
    rw [constant] at meets
    cases meets
    obtain ⟨r, present, rfl, rfl⟩ := yields₁.holds.of_column
    obtain rfl : inline = true := by
      have h := parts.2
      rwa [constant, isSome_none, Bool.false_or] at h
    have keeps : (Code.choice line id c y (some e) true).keeps = (some id :: (e.keeps ++ y.keeps)) ++ c.keeps := by
      rw [Code.keeps, constant]
      rfl
    have settles : (Code.choice line id c y (some e) true).denote m₁.market = (do
        let first ← (← y.denote m₁.market).asColumn n
        let other ← (← e.denote m₁.market).asColumn n
        (Column.replaceUnless (m₁.store.column r).finite other (range n) first).map .column) := by
      rw [denote, yields₁.market, denoted, ← faithful.bars.size]
      rfl
    rw [keeps, faithful.bars.size, ← yields₁.market]
    refine Answers.mono (Q := Yields nodes n Store.Stands (some id :: (e.keeps ++ y.keeps)) m₁) ?_ fun _ _ _ =>
      yields₁.trans
    refine .step (outcome_getRegister faithful₁.running _) ?_
    cases held : m₁.holds (Code.choice line id c y (some e) true).id? with
    | some w =>
      obtain ⟨⟨x, made, stands⟩, settled⟩ := faithful₁.held numbered rfl held
      rw [keeps] at settled
      replace settled := (append_subset.mp settled).1
      have meets := denote_meets faithful₁.bars _ plain made
      rw [constant?, constant] at meets
      cases meets
      obtain ⟨q, presentQ, rfl, rfl⟩ := stands.of_column
      dsimp only
      rw [← settles, made]
      rw [settles] at made
      obtain ⟨y', left, _, _, made⟩ := bind₂_eq_ok made
      obtain ⟨e', right, made⟩ := bind_eq_ok made
      have branches (holds : Bool) : ∃ z ids v m₂, ids ⊆ e.keeps ++ y.keeps ∧
          outcome (branch holds (eval .plain y) (eval .plain e)) m₁ = (.ok v, m₂) ∧
          Yields nodes n Store.Stands ids m₁ z v m₂ := by
        cases holds with
        | true =>
          have answers := first m₁ faithful₁
          rw [left] at answers
          obtain ⟨v, m₂, ran, yields⟩ := answers
          exact ⟨y', _, v, m₂, subset_append_right .., ran, yields⟩
        | false =>
          have answers := second m₁ faithful₁
          rw [right] at answers
          obtain ⟨v, m₂, ran, yields⟩ := answers
          exact ⟨e', _, v, m₂, subset_append_left .., ran, yields⟩
      obtain ⟨b, now, low⟩ := faithful₁.bar
      obtain ⟨holds, truth⟩ := (faithful₁.level.column r present).truthAt low
      obtain ⟨z, ids, v, m₂, mem, ran, yields₂⟩ := branches holds
      have presentQ₂ := yields₂.grows.series.lt presentQ
      have reads : outcome (onStore (r.holdsAt b)) m₁ = (.ok holds, m₁) :=
        outcome_reading ((outcome_holdsAt r b _).trans (by rw [truth]))
      refine .step (outcome_bar now) (.step reads (.step ran ?_))
      refine .step (outcome_reading (outcome_filled q _)) ?_
      rw [yields₂.faithful.level.filled presentQ₂]
      refine .pure ⟨yields₂.faithful, yields₂.market, yields₂.grows, yields₂.registers, ?_,
        .series presentQ₂ (faithful₁.level.column_eq yields₂.grows presentQ)⟩
      have inside : ids ⊆ m₁.kept := Subset.trans mem (cons_subset.mp settled).2
      rw [yields₂.kept, Yields.union_of_subset inside, Yields.union_of_subset settled]
    | none =>
      refine .andThen_ran (x := chooseNew true r (eval .plain y) (eval .plain e))
        (Q := Yields nodes n Store.Stands (e.keeps ++ y.keeps) m₁) ?_ fun x v m₂ made ran yields₂ => ?_
      · refine .step (outcome_reading (outcome_filled r _)) ?_
        rw [faithful₁.level.filled present]
        exact chooseAll_answers faithful₁ present first second branchNo.keeps
      · have absent : m₂.holds (some id) = none :=
          (holds_of_leaves (chooseNew_obeys true r branchYes.leaves branchNo.leaves) ran).trans held
        refine ⟨v, _, outcome_setRegister yields₂.faithful.running .plain _ v, ?_⟩
        refine yields₂.trans (yields₂.faithful.put numbered rfl absent (yields₂.market ▸ settles.trans made)
          yields₂.holds ?_)
        rw [keeps, yields₂.kept, yields₁.kept]
        refine cons_subset_cons _ (append_subset.mpr ⟨?_, ?_⟩)
        · exact fun _ mem => mem_union_iff.mpr (.inl mem)
        · exact fun _ mem => mem_union_iff.mpr (.inr (mem_union_iff.mpr (.inl mem)))

/-- Conditions in a row give what they stand for, combined with the ones before them. -/
def Connects (nodes : List Code) (n : Nat) (isAnd : Bool) (cs : List Code) : Prop :=
  ∀ (m : Machine) (found : Option SeriesRef), m.Faithful nodes n → (∀ r, found = some r → r.id < m.store.series.size) →
    Answers (evalConnected isAnd .plain found cs) m
      (denoteConnected m.market isAnd (found.map m.store.column) cs)
      (Yields nodes n Store.Stands (connectedKeep isAnd cs) m)

theorem connects_nil (isAnd : Bool) : Connects nodes n isAnd [] := by
  intro m found faithful present
  cases found with
  | none => cases isAnd <;> exact Yields.pure faithful (.single rfl)
  | some r => cases isAnd <;> exact Yields.pure faithful (.series (present r rfl) rfl)

theorem connects_cons {isAnd : Bool} {cs : List Code} (plain : c.plain) (first : Denotes nodes n c)
    (rest : Connects nodes n isAnd cs) : Connects nodes n isAnd (c :: cs) := by
  intro m found faithful present
  rw [evalConnected_cons, denoteConnected]
  refine .bind_ran (first m faithful) fun x v m₁ denoted _ yields₁ => ?_
  have meets := denote_meets faithful.bars c plain denoted
  have stays (r : SeriesRef) (h : found = some r) :
      r.id < m₁.store.series.size ∧ m₁.store.column r = m.store.column r :=
    ⟨yields₁.grows.series.lt (present r h),
      faithful.level.column_eq yields₁.grows (present r h)⟩
  -- The conditions that are left, in a machine that has gone on with the same nodes.
  have goesOn {x : Operand} {v : Value} {m₂ : Machine} (yields : Yields nodes n Store.Stands c.keeps m x v m₂)
      {found' : Option SeriesRef} {d : Option Column} (present' : ∀ r, found' = some r → r.id < m₂.store.series.size)
      (columns : found'.map m₂.store.column = d) :
      Answers (evalConnected isAnd .plain found' cs) m₂ (denoteConnected m.market isAnd d cs)
        (Yields nodes n Store.Stands (connectedKeep isAnd cs ++ c.keeps) m) := by
    have after := rest m₂ found' yields.faithful present'
    rw [yields.market, columns] at after
    exact after.mono fun _ _ _ => yields.trans
  rw [connectedKeep]
  cases constant : c.constant? with
  | some w =>
    rw [constant] at meets
    obtain ⟨number⟩ := meets
    cases yields₁.holds
    have decides : connect isAnd (evalConnected isAnd .plain · cs) found v =
        if v.isTrue == isAnd then evalConnected isAnd .plain found cs else pure v := by
      cases v <;> cases number <;> rfl
    rw [decides, all_some]
    dsimp only
    split
    · refine goesOn yields₁ (fun r h => (stays r h).1) ?_
      cases found with
      | none => rfl
      | some r => exact congrArg some (stays r rfl).2
    · exact .pure yields₁
  | none =>
    rw [constant] at meets
    cases meets
    obtain ⟨r, presentR, rfl, rfl⟩ := yields₁.holds.of_column
    have one {s : Store} {q : SeriesRef} (present : q.id < s.series.size) (p : SeriesRef) (h : some q = some p) :
        p.id < s.series.size :=
      Option.some.inj h ▸ present
    cases found with
    | none => exact goesOn yields₁ (one presentR) rfl
    | some p =>
      have stands : m₁.store.Stands (.series p) (.column (m.store.column p)) :=
        .series (stays p rfl).1 (stays p rfl).2
      refine .bind (onStore_answers (logic_makes yields₁.faithful.level faithful.positive isAnd presentR
        stands)) fun d q m₂ ⟨same, makes⟩ => ?_
      have produces : Produces n m₁ (.column d) (.series q) m₂ :=
        ⟨same, makes.grows, makes.level, .series makes.present makes.column⟩
      exact goesOn (yields₁.trans (.of_produces yields₁.faithful produces)) (one makes.present)
        (congrArg some makes.column)

theorem part_fits (fit : c.fits (nodes.take id)) : c.fits nodes :=
  fits_mono ( take_prefix id nodes) c fit

theorem part_branch {part : Code} (known : nodes[id]? = some code) (closed : part.closed)
    (fit : part.fits (nodes.take id)) : Branch id (eval .plain part) := by
  have length : (nodes.take id).length = id :=
    length_take_of_le (Nat.le_of_lt (List.getElem?_eq_some_iff.mp known).1)
  exact ⟨fun apart => eval_keeps [] .plain part closed, length ▸ eval_leaves .plain _ part fit⟩

mutual

theorem eval_denotes (c : Code) (fit : c.fits nodes) (closed : c.closed) (plain : c.plain) : Denotes nodes n c := by
  cases c with
  | block line items =>
    intro m faithful
    simp only [Code.plain, Bool.and_eq_true] at plain
    exact evalBlock_denotes items fit closed plain.2 faithful (.single rfl)
  | literal line v => exact fun m faithful => Yields.pure faithful (.single (Value.single_of_number plain))
  | anyOf line items => exact fun m faithful => evalConnected_denotes false items fit closed plain m none faithful nofun
  | allOf line items => exact fun m faithful => evalConnected_denotes true items fit closed plain m none faithful nofun
  | binary line op a b =>
    intro m faithful
    simp only [Code.plain, Code.closed, Bool.and_eq_true] at plain closed
    refine Yields.bind (eval_denotes a fit.1 closed.1 plain.1 m faithful) fun x v m₁ left _ yields₁ => ?_
    refine Yields.andThen ((eval_denotes b fit.2 closed.2 plain.2).after yields₁) fun y w m₂ right yields₂ => ?_
    exact binary_produces yields₂.faithful.level op (yields₁.holds.grow yields₁.faithful.level yields₂.grows)
      yields₂.holds (denote_meets faithful.bars a plain.1 left) (denote_meets faithful.bars b plain.2 right)
  | unary line op a =>
    intro m faithful
    refine Yields.andThen (eval_denotes a fit closed plain m faithful) fun x v m₁ h yields => ?_
    exact unary_produces yields.faithful.level op yields.holds (denote_meets faithful.bars a plain h)
  | builtin line id name v =>
    cases v with
    | source s =>
      exact fun m faithful => builtinVariable_answers faithful ⟨id, rfl, fit⟩ rfl (by simpa [Code.plain] using plain)
    | _ => cases plain
  | «variable» line name target => exact eval_denotes target fit closed plain
  | call id name fn args named =>
    intro m faithful
    simp only [Code.plain, Code.closed, Bool.and_eq_true] at plain closed
    have fitArgs := (allFit_iff args).mpr fun c mem => fits_child fit (mem_append_left _ mem)
    have fitNamed := (allNamedFit_iff named).mpr fun c mem => fits_child fit (mem_append_right _ mem)
    have other (set : Bool) : ¬ (fn.role == .header && set) = true := by
      rw [role_of_steady plain.2]
      nofun
    refine .step (outcome_get m) ?_
    rw [if_neg (other _)]
    refine Yields.bind (evalAll_denotes args fitArgs closed.1 plain.1.1 faithful) fun xs vs m₁ h _ yields₁ => ?_
    have others := evalNamed_denotes named fitNamed closed.2 plain.1.2 yields₁.faithful
    rw [yields₁.market] at others
    refine Yields.andThen others fun ys ws m₂ given' yields₂ => ?_
    have knows : Knows n (constants args) (namedConstants named) xs ys :=
      ⟨(denoteAll_settles (k := n) faithful.bars False.elim args plain.1.1 False.elim h).1,
        (denoteNamed_settles (k := n) faithful.bars False.elim named plain.1.2 False.elim given').1⟩
    rw [← yields₁.market, ← yields₂.market]
    exact call_produces yields₂.faithful.level yields₂.faithful.bars
      (yields₁.holds.imp fun _ _ stands => stands.grow yields₁.faithful.level yields₂.grows) yields₂.holds
      faithful.positive knows _ name plain.2
  | choice line id c y no inline =>
    cases no with
    | none => cases plain
    | some e =>
      have parts := plain
      simp only [Code.plain, Code.closed, Bool.and_eq_true] at parts closed
      obtain ⟨known, fitC, fitY, fitE⟩ := fit
      exact choice_denotes known plain (eval_denotes c (part_fits fitC) closed.1.1 parts.1.1.1)
        (eval_denotes y (part_fits fitY) closed.1.2 parts.1.1.2) (eval_denotes e (part_fits fitE) closed.2 parts.1.2)
        (part_branch known closed.1.2 fitY) (part_branch known closed.2 fitE)
  | define line id name e =>
    have branch : Branch id (eval .plain e) := part_branch fit.1 closed fit.2
    exact define_denotes fit.1 plain (eval_denotes e (part_fits fit.2) closed plain) branch.leaves
  | inlined name params args body =>
    intro m faithful
    simp only [Code.plain, Code.closed, Bool.and_eq_true] at plain closed
    refine Yields.bind (evalBlock_denotes args fit.1 closed.1 plain.1 faithful (.single rfl)) fun _ _ _ _ _ yields => ?_
    exact (eval_denotes body fit.2 closed.2 plain.2).after yields
  | list | loop | assign => cases plain

theorem evalBlock_denotes (cs : List Code) (fit : allFit nodes cs) (closed : allClosed cs) (plain : allPlain cs)
    {m : Machine} {v : Value} {x : Operand} (faithful : m.Faithful nodes n) (stands : m.store.Stands v x) :
    Answers (evalBlock .plain v cs) m (denoteLast m.market x cs) (Yields nodes n Store.Stands (allKeep cs) m) := by
  cases cs with
  | nil => exact Yields.pure faithful stands
  | cons c rest =>
    simp only [allPlain, allClosed, Bool.and_eq_true] at plain closed
    refine Yields.bind (eval_denotes c fit.1 closed.1 plain.1 m faithful) fun y w m₁ _ _ yields => ?_
    have after := evalBlock_denotes rest fit.2 closed.2 plain.2 yields.faithful yields.holds
    rwa [yields.market] at after

theorem evalAll_denotes (cs : List Code) (fit : allFit nodes cs) (closed : allClosed cs)
    (plain : allPlain cs) {m : Machine} (faithful : m.Faithful nodes n) :
    Answers (evalAll .plain cs) m (denoteAll m.market cs)
      (Yields nodes n (fun s vs xs => Forall₂ s.Stands vs xs) (allKeep cs) m) := by
  cases cs with
  | nil => exact Yields.pure faithful .nil
  | cons c rest =>
    simp only [allPlain, allClosed, Bool.and_eq_true] at plain closed
    refine Yields.bind (eval_denotes c fit.1 closed.1 plain.1 m faithful) fun x v m₁ _ _ yields₁ => ?_
    have others := evalAll_denotes rest fit.2 closed.2 plain.2 yields₁.faithful
    rw [yields₁.market] at others
    refine others.bind fun xs vs m₂ yields₂ => .pure ?_
    exact yields₂.also (.cons (yields₁.holds.grow yields₁.faithful.level yields₂.grows) yields₂.holds)

theorem evalNamed_denotes (cs : List (String × Code)) (fit : allNamedFit nodes cs) (closed : allNamedClosed cs)
    (plain : namedPlain cs) {m : Machine} (faithful : m.Faithful nodes n) :
    Answers (evalNamed .plain cs) m (denoteNamed m.market cs)
      (Yields nodes n (fun s vs xs => Forall₂ (fun v x => v.1 = x.1 ∧ s.Stands v.2 x.2) vs xs) (namedKeep cs)
        m) := by
  match cs with
  | [] => exact Yields.pure faithful .nil
  | (name, c) :: rest =>
    simp only [namedPlain, allNamedClosed, Bool.and_eq_true] at plain closed
    refine Yields.bind (eval_denotes c fit.1 closed.1 plain.1 m faithful) fun x v m₁ _ _ yields₁ => ?_
    have others := evalNamed_denotes rest fit.2 closed.2 plain.2 yields₁.faithful
    rw [yields₁.market] at others
    refine others.bind fun xs vs m₂ yields₂ => .pure ?_
    exact yields₂.also (.cons ⟨rfl, yields₁.holds.grow yields₁.faithful.level yields₂.grows⟩ yields₂.holds)

theorem evalConnected_denotes (isAnd : Bool) (cs : List Code) (fit : allFit nodes cs) (closed : allClosed cs)
    (plain : allPlain cs) : Connects nodes n isAnd cs := by
  cases cs with
  | nil => exact connects_nil isAnd
  | cons c rest =>
    simp only [allPlain, allClosed, Bool.and_eq_true] at plain closed
    exact connects_cons plain.1 (eval_denotes c fit.1 closed.1 plain.1)
      (evalConnected_denotes isAnd rest fit.2 closed.2 plain.2)

end

end Machine

end PineEngine
