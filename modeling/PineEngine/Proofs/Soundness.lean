import PineEngine.Proofs.References
import PineEngine.Proofs.Walking

/-! # Soundness of evaluation

A sound machine stays sound whatever compiled code is evaluated, and the values that it comes to are in its
store (`Machine.eval_keeps`). So every machine that a run of a script comes to is sound, as its code names no series of
its own (`Machine.Reached.sound`).
-/

namespace PineEngine

open Script Builtin Computation Store

def Value.isSeries : Value → Bool
  | .series _ => true
  | _ => false

variable {c : Code} {m : Machine}

namespace Script.Code

mutual

/-- Code that names no series of its own, nor a built-in variable that the compiler puts a value for. -/
def closed : Code → Bool
  | .block _ items | .list _ items | .anyOf _ items | .allOf _ items => allClosed items
  | .literal _ v => !v.isSeries
  | .binary _ _ a b => a.closed && b.closed
  | .unary _ _ a => a.closed
  | .builtin _ _ _ v => v.folded?.isNone
  | .variable _ _ target => target.closed
  | .call _ _ _ args named => allClosed args && allNamedClosed named
  | .choice _ _ c y none _ => c.closed && y.closed
  | .choice _ _ c y (some e) _ => c.closed && y.closed && e.closed
  | .loop _ _ _ _ e l b => e.closed && l.closed && b.closed
  | .define _ _ _ e => e.closed
  | .assign _ _ target e => target.closed && e.closed
  | .inlined _ _ args body => allClosed args && body.closed

def allClosed : List Code → Bool
  | [] => true
  | c :: rest => c.closed && allClosed rest

def allNamedClosed : List (String × Code) → Bool
  | [] => true
  | (_, c) :: rest => c.closed && allNamedClosed rest

end

theorem allClosed_iff (items : List Code) : allClosed items ↔ ∀ c ∈ items, c.closed := by
  induction items with
  | nil => simp [allClosed]
  | cons c rest ih => simp [allClosed, ih]

theorem allNamedClosed_iff (named : List (String × Code)) :
    allNamedClosed named ↔ ∀ c ∈ named.map (·.2), c.closed := by
  induction named with
  | nil => simp [allNamedClosed]
  | cons entry rest ih => simp [allNamedClosed, ih]

/-- A node that is no series, and no built-in variable that the compiler puts a value for. -/
def Live : Code → Prop
  | .literal _ v => v.isSeries = false
  | .builtin _ _ _ v => v.folded?.isNone
  | _ => True

theorem closed_iff (c : Code) : c.closed ↔ c.Live ∧ ∀ d, c.Child d → d.closed := by
  cases c with
  | choice line id c y no inline => cases no <;> simp [Code.closed, Live, Child, children, and_assoc]
  | _ => simp [Code.closed, Live, Child, children, allClosed_iff, allNamedClosed_iff, or_imp, forall_and, and_assoc]

theorem closed_child {d : Code} (closed : c.closed) (child : c.Child d) : d.closed :=
  ((closed_iff c).mp closed).2 d child

theorem closed_part {d : Code} (closed : c.closed) (mem : d ∈ c.evaluated) : d.closed :=
  closed_child closed (child_of_evaluated mem)

end Script.Code

/-- A change to the series `r` alone: harmless if it is open. -/
def Store.Writes (apart : Nat → Prop) (r : SeriesRef) (s s' : Store) : Prop :=
  s.Open apart r → s.Spares apart s'

namespace Store

variable {apart : Nat → Prop} {r : SeriesRef}

instance : Std.Refl (Writes apart r) :=
  ⟨fun s _ => .refl s⟩

instance : Trans (Writes apart r) (Writes apart r) (Writes apart r) :=
  ⟨fun first second opens => (first opens).trans (second (opens.spares (first opens)))⟩

theorem update_writes {f : Column → Except Fault Column} (length : ∀ c c', f c = .ok c' → c'.length = c.length) :
    Obeys (Writes apart r) (r.update f) :=
  SeriesRef.update_obeys fun _ c made opens => opens.setColumn_spares (length _ c made)

theorem set_writes (i : Int) (v : Value) : Obeys (Writes apart r) (r.set i v) :=
  update_writes (f := (·.set i v)) fun _ _ => Column.set_length

theorem setValid_writes (valid : Int) : Obeys (Writes apart r) (r.setValid valid) :=
  fun s _ => setValid_spares s r valid

theorem replaceUnless_writes (cond other : SeriesRef) (n : Nat) :
    Obeys (Writes apart r) (r.replaceUnless cond other n) :=
  SeriesRef.replaceUnless_obeys set_writes cond other n

end Store

namespace Machine

variable {apart : Nat → Prop} {given : List Value}

theorem Sound.withStore (sound : m.Sound apart) {s : Store} (spares : m.store.Spares apart s) :
    m.Follows apart { m with store := s } :=
  ⟨⟨fun k taken => spares.columns.lt (sound.inside k taken),
    fun c running => (sound.times c running).spares spares,
    fun c running x mem r value => (sound.held c running x mem r value).spares spares, sound.inputs, sound.told⟩,
    spares, rfl, rfl, rfl, fun _ => .rfl⟩

theorem onStore_writes {α : Type} {r : SeriesRef} {x : SeriesM α} (writes : Obeys (Writes apart r) x) :
    Keeps apart (.series r :: given) (onStore x) fun _ => [] := by
  intro m sound opens
  rw [outcome_onStore]
  refine ⟨sound.withStore (writes m.store (opens r (.head _))), fun _ _ _ mem => ?_⟩
  exact (List.not_mem_nil mem).elim

theorem Sound.put (sound : m.Sound apart) (code : Code) {v : Value}
    (opens : ∀ r, v = .series r → m.store.Open apart r) : (m.put code v).Sound apart := by
  cases running : m.context with
  | none =>
    rw [put_idle running]
    exact sound
  | some c =>
    refine ⟨sound.inside, fun c' running' => ?_, fun c' running' x mem r value => ?_, sound.inputs, sound.told⟩
    all_goals
      simp only [Machine.put, running, Option.map_some, Option.some.injEq] at running'
      subst running'
    · exact sound.times c running
    · rcases mem_putRegister mem with new | old
      · exact opens r (new.symm.trans value)
      · exact sound.held c running x old r value

theorem setRegister_keeps (scope : Scope) (code : Code) (v : Value) :
    Keeps apart (v :: given) (setRegister scope code v) ([·]) := by
  intro m sound opens
  cases running : m.context with
  | none =>
    rw [outcome_setRegister_idle running]
    exact ⟨.refl sound, nofun⟩
  | some c =>
    rw [outcome_setRegister (by simp [barNow, running])]
    refine ⟨⟨sound.put code fun r same => opens r (same ▸ List.mem_cons_self ..), .refl _, rfl, rfl, rfl, fun _ => .rfl⟩,
      ?_⟩
    intro w found r mem
    split at found
    · cases found
    · cases found
      exact opens r (List.mem_cons.mpr (.inl (List.mem_singleton.mp mem)))

theorem setRegisterValue_keeps (code : Code) (v : Value) :
    Keeps apart given (setRegisterValue code v) fun _ => [] := by
  intro m sound opens
  obtain ⟨e, failed⟩ | ⟨c, r, _, bound, same⟩ := setRegisterValue_cases code v m
  · rw [failed]
    exact ⟨.refl sound, nofun⟩
  · rw [same]
    have writes : Keeps apart (.series r :: given) (storeAt r c.bar v) fun _ => [] :=
      .bind (onStore_writes (set_writes _ v)) fun _ => onStore_writes (setValid_writes _)
    refine writes m sound fun r' mem => ?_
    rcases List.mem_cons.mp mem with same | old
    · cases same
      exact sound.registers _ r bound
    · exact opens r' old

theorem advance_keeps (up : Bool) (counter : Value) :
    Keeps apart (counter :: given) (advance up counter) ([·]) := by
  unfold advance
  dsimp only
  split
  · refine .bind (onStore_writes (update_writes fun c c' made => ?_)) fun _ => .found
    obtain ⟨next, counted, made⟩ := bind_eq_ok made
    split at made <;> cases made
    exact Column.arith_length counted
  · exact .lift (Value.arith_ne_series _ _ _)

theorem keeps_walkClosed (apart : Nat → Prop) : WalkClosed (Keeps apart) (OfFirst (Keeps apart)) where
  toBuildClosed := keeps_buildClosed apart
  toPairClosed := (keeps_buildClosed apart).pair
  write := setRegisterValue_keeps
  replace _ cond other n := onStore_writes (replaceUnless_writes cond other n)
  stamp _ valid := onStore_writes (setValid_writes valid)
  advance := advance_keeps
  limit nears _ each m := by
    obtain never | ⟨n, same⟩ := nears.cases m
    · rw [never]
      exact Keeps.throw _ m
    · rw [same]
      exact each n m

theorem keeps_evalClosed (apart : Nat → Prop) (ids : List Nat) : EvalClosed ids (·.closed) (Keeps apart) := by
  have stores (code : Code) : Stores (OneScope ids) (OfFirst (Keeps apart)) code :=
    fun scope _ _ _ v => setRegister_keeps scope code v
  refine (keeps_walkClosed apart).codeClosed (.one ids) Code.closed_part (fun closed _ => .plain fun r same => ?_)
    (fun closed => ?_) fun _ _ _ => stores _
  · simp [same, Code.closed, Value.isSeries] at closed
  · exact (keeps_walkClosed apart).builtinVariable (stores _) fun _ =>
      variableValue_keeps (Option.isNone_iff_eq_none.mp closed)

theorem eval_keeps (given : List Value) (scope : Scope) (code : Code) (closed : code.closed) :
    Keeps apart given (eval scope code) ([·]) :=
  (keeps_evalClosed apart scope.mutable).judged rfl code closed given

end Machine

namespace Script

/-- The call that describes the script names no series of its own, and no more do those that ask for markets. -/
structure Annotations.Closed (a : Annotations) : Prop where
  header : ∀ header, a.header = some header → header.closed
  securities : ∀ c ∈ a.securities, c.closed

namespace Code

theorem note_closed {a : Annotations} (noted : a.Closed) (closed : c.closed) (role : Role) :
    (a.note c role).Closed := by
  cases role with
  | header =>
    refine ⟨fun header h => ?_, noted.securities⟩
    cases h
    exact closed
  | security =>
    refine ⟨noted.header, fun d mem => ?_⟩
    simp only [Annotations.note, Annotations.addOnce] at mem
    split at mem
    · exact noted.securities d mem
    · rcases List.mem_append.mp mem with old | new
      · exact noted.securities d old
      · exact List.mem_singleton.mp new ▸ closed
  | _ => exact ⟨noted.header, noted.securities⟩

theorem annotate_closed {a : Annotations} (noted : a.Closed) (c : Code) (closed : c.closed) :
    (c.annotate a).Closed :=
  annotate_keeps (P := Annotations.Closed) (K := (·.closed)) closed_child
    (fun closed _ noted => note_closed noted closed _) c closed noted

end Code

end Script

namespace Machine

variable {apart : Nat → Prop} {given : List Value}

theorem reset_keeps : Keeps apart given reset fun _ => [] := by
  refine .bind (.of_reads .get) fun m => .bind ((keeps_buildClosed apart).sourceSeries _ _ _) fun times => ?_
  intro m sound opens
  have open' := opens times (List.mem_append_left _ (List.mem_singleton_self _))
  refine ⟨⟨⟨sound.inside, fun c running => ?_, fun c running => ?_, sound.inputs, sound.told⟩, .refl _, rfl, rfl, rfl,
    fun _ => .rfl⟩, nofun⟩ <;> cases running
  · exact open'
  · exact nofun

/-- The machines that a run of a program comes to. What is set from outside meanwhile, the inputs of the
    script and a broker, names no series. -/
inductive Reached (p : Program) : Machine → Prop where
  | load (mode : Mode) (market : Market) (library : Library) :
    Reached p (leaves (load p) { new mode market with library })
  | equip {m : Machine} (run : Reached p m) {inputs : Value} {broker : Option Broker}
    (plain : ∀ title r, givenInput inputs title ≠ .ok (.series r))
    (told : ∀ b r, broker = some b → ¬ b.told (.series r)) :
    Reached p { m with userInputs := inputs, broker := broker }
  | step {m : Machine} (run : Reached p m) : Reached p (leaves step m)

theorem topScope_reads : Obeys Eq topScope :=
  .bind .get fun _ => .pure _

def taking (m : Machine) (p : Program) : Machine :=
  { m with program := p, annotations := p.code.annotations }

variable {p : Program}

theorem annotations_closed (closed : p.code.closed) : p.code.annotations.Closed := by
  refine Code.annotate_closed ⟨fun _ none => ?_, fun _ none => ?_⟩ p.code closed
  · cases none
  · cases none

theorem load_follows (sound : m.Sound apart) (closed : p.code.closed) :
    (m.taking p).Follows apart (leaves (load p) m) := by
  have sound' : (m.taking p).Sound apart := ⟨sound.inside, sound.times, sound.held, sound.inputs, sound.told⟩
  refine (?_ : Keeps apart [] _ fun _ => []).follows sound'
  split
  next header h =>
    have closedHeader : header.closed := (annotations_closed closed).header header h
    refine .bind (.of_reads topScope_reads) fun scope => .bind (eval_keeps _ scope header closedHeader) fun _ =>
      .bind (.of_reads .get) fun _ => ?_
    split
    · exact .throw _
    · exact reset_keeps
  next => exact reset_keeps

theorem modifyBar_keeps (f : Int → Int) :
    Keeps apart given (modifyContext fun c => { c with bar := f c.bar }) fun _ => [] := by
  intro m sound _
  refine ⟨?_, by simp⟩
  rw [show (outcome _ m).2 = _ from leaves_modifyContext _ m]
  refine ⟨⟨sound.inside, fun c' running' => ?_, fun c' running' => ?_, sound.inputs, sound.told⟩, .refl _, rfl, rfl, rfl,
    fun _ => .rfl⟩ <;> obtain ⟨c, running, rfl⟩ := Option.map_eq_some_iff.mp running'
  · exact sound.times c running
  · exact sound.held c running

/-- What a step does before it goes to the next bar. -/
def work (p : Program) : MachineM Unit := do
  let _ ← eval { mutable := p.mutable } p.code
  withBroker (do let _ ← Broker.step)

theorem outcome_step (m : Machine) :
    outcome step m = outcome (work m.program >>= fun _ => modifyContext fun c => { c with bar := c.bar + 1 }) m := by
  rw [work, bind_assoc]
  rfl

theorem step_follows (sound : m.Sound apart) (closed : m.program.code.closed) : m.Follows apart (leaves step m) := by
  have works : Keeps apart [] (work m.program) fun _ => [] :=
    .bind (eval_keeps _ _ m.program.code closed) fun _ => .of_plain brokerStep_quiet
  rw [leaves, outcome_step]
  exact (works.bind fun _ => modifyBar_keeps (· + 1)).follows sound

theorem new_sound (mode : Mode) (market : Market) (library : Library) :
    Sound (fun _ => False) { new mode market with library } := by
  refine ⟨fun _ taken => taken.elim, ?_, ?_, ?_, ?_⟩
  · intro c running
    cases running
  · intro c running
    cases running
  · intro title r h
    cases h
  · intro r ⟨b, h, _⟩
    cases h

theorem Reached.sound (closed : p.code.closed) (run : Reached p m) : m.Sound (fun _ => False) ∧ m.program = p := by
  induction run with
  | load mode market library =>
    have follows := load_follows (new_sound mode market library) closed
    exact ⟨follows.sound, follows.program⟩
  | equip run plain told ih =>
    obtain ⟨sound, program⟩ := ih
    exact ⟨⟨sound.inside, sound.times, sound.held, plain, fun r ⟨b, h, here⟩ => told b r h here⟩,
      program⟩
  | step run ih =>
    obtain ⟨sound, program⟩ := ih
    have follows := step_follows sound (program ▸ closed)
    exact ⟨follows.sound, follows.program.trans program⟩

/-- The program of a text, and the machine that steps over a market come to. -/
def ran (text : String) (market : Market) (steps : Nat) : Option (Program × Machine) :=
  match compile text with
  | .ok p => some (p, Nat.repeat (leaves step) steps (leaves (load p) (new .plain market)))
  | .error _ => none

theorem ran_reached {text : String} {market : Market} {steps : Nat} (h : ran text market steps = some (p, m)) :
    compile text = .ok p ∧ Reached p m := by
  unfold ran at h
  split at h
  next q compiled =>
    cases h
    refine ⟨compiled, ?_⟩
    induction steps with
    | zero => exact .load .plain market Library.empty
    | succ n ih => exact .step ih
  next => cases h

end Machine

/-- A market in which opening, highest, lowest and closing price are the same at each bar. -/
def Market.flat (prices : List Float) : Market :=
  let track : Track := prices.map Value.float
  { candles := Candles.ofColumns fun
      | .time => (List.range prices.length).map fun (i : Nat) => .int (60 * i)
      | _ => track }

end PineEngine
