import PineEngine.Machine.Run
import PineEngine.Proofs.Registers

/-! # References

A machine is sound if every series that it refers to is in the store (`Machine.Sound`). Evaluation keeps a
machine sound, and gives series of the store only (`eval_keeps`).

Columns can be set apart: a machine that refers to no series with such a column never comes to refer to one,
and leaves the column as it is. So a series that was just made, and that no register holds, is safe from
whatever is evaluated next.
-/

namespace PineEngine

open Script Builtin Computation Store List

namespace Store

/-- A reference to a series of the store, with a column of the store that is not set apart. -/
structure Open (apart : Nat → Prop) (s : Store) (r : SeriesRef) : Prop where
  present : r.id < s.series.size
  inside : (s.head r).column < s.columns.size
  free : ¬ apart (s.head r).column

/-- The series keep their columns and these their lengths, what is set apart stays as it is, and no two series come
    to share a column. -/
structure Spares (apart : Nat → Prop) (s s' : Store) : Prop where
  series : Carried (fun h h' => h'.column = h.column) s.series s'.series
  columns : Carried (fun c c' => c'.length = c.length) s.columns s'.columns
  kept : ∀ k, apart k → s'.columns[k]? = s.columns[k]?
  straight : s.Straight → s'.Straight

variable {apart : Nat → Prop} {s s' s'' : Store} {r : SeriesRef}

theorem Spares.refl (s : Store) : s.Spares apart s :=
  ⟨fun _ h here => ⟨h, here, rfl⟩, fun _ c here => ⟨c, here, rfl⟩, fun _ _ => rfl, id⟩

theorem Spares.trans (first : s.Spares apart s') (second : s'.Spares apart s'') : s.Spares apart s'' where
  series := first.series.comp second.series fun same same' => same'.trans same
  columns := first.columns.comp second.columns fun same same' => same'.trans same
  kept k taken := (second.kept k taken).trans (first.kept k taken)
  straight := second.straight ∘ first.straight

theorem Grows.spares (grows : s.Grows s') (inside : ∀ k, apart k → k < s.columns.size) : s.Spares apart s' where
  series := grows.series.of_eq fun _ => rfl
  columns := grows.columns.of_eq fun _ => rfl
  kept k taken := by
    obtain ⟨_, there, rfl⟩ := grows.columns k _ (Array.getElem?_eq_getElem (inside k taken))
    rw [there, Array.getElem?_eq_getElem]
  straight := grows.straight

theorem Spares.head_column (spares : s.Spares apart s') (present : r.id < s.series.size) :
    (s'.head r).column = (s.head r).column := by
  obtain ⟨h', there, same⟩ := spares.series r.id _ (series_head present)
  rw [head_of_series there, same]

theorem Open.spares (opens : s.Open apart r) (spares : s.Spares apart s') : s'.Open apart r := by
  have column := spares.head_column opens.present
  refine ⟨spares.series.lt opens.present, ?_, ?_⟩
  · rw [column]
    exact spares.columns.lt opens.inside
  · rw [column]
    exact opens.free

theorem Spares.length (spares : s.Spares apart s') (opens : s.Open apart r) :
    (s'.column r).length = (s.column r).length := by
  obtain ⟨c, here, length⟩ := spares.columns _ _ (columns_column opens.inside)
  rw [column_of_columns ((spares.head_column opens.present).symm ▸ here), length]

theorem Added.opens (added : s.Added s' r) (inside : ∀ k, apart k → k < s.columns.size) : s'.Open apart r :=
  ⟨added.present, added.inside, fun taken => Nat.not_lt.mpr added.column (inside _ taken)⟩

theorem Open.setColumn_spares (opens : s.Open apart r) {c : Column} (length : c.length = (s.column r).length) :
    s.Spares apart (s.setColumn r c) where
  series := fun _ h here => ⟨h, here, rfl⟩
  columns := (Spares.refl s : s.Spares apart s).columns.set fun _ here => by rw [length, column_of_columns here]
  kept k taken := by
    have other : (s.head r).column ≠ k := fun same => opens.free (same ▸ taken)
    simp [setColumn, other]
  straight straight := straight.setColumn r c

theorem setValid_spares (s : Store) (r : SeriesRef) (valid : Int) : s.Spares apart (s.setValid r valid) where
  series := (Spares.refl s : s.Spares apart s).series.set fun h here => by rw [head_of_series here]
  columns := (Spares.refl s : s.Spares apart s).columns
  kept _ _ := rfl
  straight straight := straight.setValid r valid

end Store

namespace Machine

/-- Every series that a machine refers to is in the store, with a column that is not set apart. What comes
    from outside, the inputs and the position that the broker was told, is no series. -/
structure Sound (apart : Nat → Prop) (m : Machine) : Prop where
  inside : ∀ k, apart k → k < m.store.columns.size
  times : ∀ c, m.context = some c → m.store.Open apart c.timestamps
  held : ∀ c, m.context = some c → ∀ x ∈ c.registers, ∀ r, x.value = .series r → m.store.Open apart r
  inputs : ∀ title r, givenInput m.userInputs title ≠ .ok (.series r)
  told : ∀ r, ¬ m.told (.series r)

structure Follows (apart : Nat → Prop) (m m' : Machine) : Prop where
  sound : m'.Sound apart
  store : m.store.Spares apart m'.store
  program : m'.program = m.program
  annotations : m'.annotations = m.annotations
  market : m'.market = m.market
  told : ∀ v, m'.told v ↔ m.told v

variable {apart : Nat → Prop} {m m' m'' : Machine} {α β : Type}

theorem Sound.registers (sound : m.Sound apart) (id : Option Nat) (r : SeriesRef) (bound : m.Bound id r) :
    m.store.Open apart r := by
  obtain ⟨c, running, x, mem, value⟩ := bound.mem
  exact sound.held c running x mem r value

theorem Follows.refl (sound : m.Sound apart) : m.Follows apart m :=
  ⟨sound, .refl _, rfl, rfl, rfl, fun _ => .rfl⟩

theorem Follows.trans (first : m.Follows apart m') (second : m'.Follows apart m'') : m.Follows apart m'' :=
  ⟨second.sound, first.store.trans second.store, second.program.trans first.program,
    second.annotations.trans first.annotations, second.market.trans first.market,
    fun v => (second.told v).trans (first.told v)⟩

theorem Quiet.follows (quiet : m.Quiet m') (sound : m.Sound apart) : m.Follows apart m' := by
  have spares := quiet.store.spares sound.inside
  refine ⟨⟨fun k taken => ?_, fun c running => ?_, fun c running => ?_, fun title r => ?_, fun r told => ?_⟩, spares,
    quiet.program, quiet.annotations, quiet.market, quiet.told⟩
  · exact spares.columns.lt (sound.inside k taken)
  · exact (sound.times c (quiet.context ▸ running)).spares spares
  · intro x mem r value
    exact (sound.held c (quiet.context ▸ running) x mem r value).spares spares
  · rw [quiet.inputs]
    exact sound.inputs title r
  · exact sound.told r ((quiet.told _).mp told)

/-- From a sound machine for which the series among the given values are open, a computation comes to a
    sound machine for which the series among the values that it gives are open. -/
def Keeps (apart : Nat → Prop) (given : List Value) (x : MachineM α) (gives : α → List Value) : Prop :=
  ∀ m : Machine, m.Sound apart → (∀ r, .series r ∈ given → m.store.Open apart r) →
    m.Follows apart (outcome x m).2 ∧
      ∀ a, (outcome x m).1 = .ok a → ∀ r, .series r ∈ gives a → (outcome x m).2.store.Open apart r

namespace Keeps

variable {given : List Value} {gives : α → List Value} {gives' : β → List Value} {x : MachineM α} {f : α → MachineM β}
  {v : Value}

theorem follows (keeps : Keeps apart [] x gives) {m : Machine} (sound : m.Sound apart) :
    m.Follows apart (leaves x m) :=
  (keeps m sound (by simp)).1

theorem pure {a : α} (held : ∀ r, .series r ∈ gives a → .series r ∈ given) : Keeps apart given (pure a) gives := by
  intro m sound opens
  refine ⟨.refl sound, fun a' found r mem => ?_⟩
  cases found
  exact opens r (held r mem)

theorem found : Keeps apart (v :: given) (Pure.pure v) ([·]) :=
  pure fun _ mem => mem_cons.mpr (.inl (mem_singleton.mp mem))

theorem throw (e : Fault) : Keeps apart given (throw e : MachineM α) gives :=
  fun _ sound _ => ⟨.refl sound, nofun⟩

theorem bind (first : Keeps apart given x gives)
    (rest : ∀ a, Keeps apart (gives a ++ given) (f a) gives') : Keeps apart given (x >>= f) gives' := by
  intro m sound opens
  obtain ⟨follows, gave⟩ := first m sound opens
  rcases found : outcome x m with ⟨e | a, m'⟩ <;> rw [found] at follows gave
  · rw [bind_error found]
    exact ⟨follows, nofun⟩
  · rw [bind_ok found]
    obtain ⟨follows', gave'⟩ := rest a m' follows.sound fun r mem => by
      rcases mem_append.mp mem with new | old
      · exact gave a rfl r new
      · exact (opens r old).spares follows.store
    exact ⟨follows.trans follows', gave'⟩

theorem bind_lift {e : Except Fault α}
    (rest : ∀ a, e = .ok a → Keeps apart given (f a) gives') :
    Keeps apart given ((liftM e : MachineM α) >>= f) gives' := by
  cases e with
  | error e => exact throw e
  | ok a => exact rest a rfl

theorem tryCatch {h : Fault → MachineM α} (first : Keeps apart given x gives)
    (rest : ∀ e, Keeps apart given (h e) gives) : Keeps apart given (tryCatch x h) gives := by
  intro m sound opens
  obtain ⟨follows, gave⟩ := first m sound opens
  rw [outcome_tryCatch]
  rcases found : outcome x m with ⟨e | a, m'⟩ <;> rw [found] at follows gave
  · obtain ⟨follows', gave'⟩ := rest e m' follows.sound fun r mem => (opens r mem).spares follows.store
    exact ⟨follows.trans follows', gave'⟩
  · exact ⟨follows, gave⟩

theorem mono {more : List Value} (keeps : Keeps apart given x gives)
    (mem : ∀ r, .series r ∈ given → .series r ∈ more) : Keeps apart more x gives :=
  fun m sound opens => keeps m sound fun r here => opens r (mem r here)

theorem more (keeps : Keeps apart given x gives) : Keeps apart (v :: given) x gives :=
  keeps.mono fun _ mem => mem_cons_of_mem _ mem

theorem of_quiet (quiet : Obeys Quiet x)
    (old : ∀ m m' a, outcome x m = (.ok a, m') → ∀ r, .series r ∈ gives a → .series r ∈ given) :
    Keeps apart given x gives := by
  intro m sound opens
  have follows := Quiet.follows (quiet m) sound
  refine ⟨follows, fun a found r mem => ?_⟩
  exact (opens r (old m _ a (Prod.ext found rfl) r mem)).spares follows.store

theorem of_plain (quiet : Obeys Quiet x) : Keeps apart given x fun _ => [] :=
  of_quiet quiet fun _ _ _ _ _ mem => (not_mem_nil mem).elim

theorem of_reads (reads : Obeys Eq x) : Keeps apart given x fun _ => [] :=
  of_plain (.of_reads reads)

theorem of_builds {x : SeriesM SeriesRef} (builds : Builds x) :
    Keeps apart given (onStore x) fun r => [.series r] := by
  intro m sound _
  have quiet : m.Quiet (outcome (onStore x) m).2 := onStore_quiet builds.grows m
  refine ⟨quiet.follows sound, fun r found r' mem => ?_⟩
  cases mem_singleton.mp mem
  rw [outcome_onStore] at found ⊢
  have added := builds m.store m.store (Std.Refl.refl _)
  rw [show outcome x m.store = (.ok r, _) from Prod.ext found rfl] at added
  exact Added.opens added sound.inside

theorem of_brings {x : SeriesM Value} (brings : Brings given x) :
    Keeps apart given (onStore x) ([·]) := by
  intro m sound opens
  have quiet : m.Quiet (outcome (onStore x) m).2 := onStore_quiet brings.grows m
  have follows := quiet.follows sound
  refine ⟨follows, fun v found r mem => ?_⟩
  have same := mem_singleton.mp mem
  rw [outcome_onStore] at found follows ⊢
  have after := brings m.store m.store (Std.Refl.refl _)
  rw [show outcome x m.store = (.ok v, _) from Prod.ext found rfl] at after
  rcases after.2 r same.symm with added | old
  · exact Added.opens added sound.inside
  · exact (opens r (same ▸ old)).spares follows.store

theorem lift {e : Except Fault Value} (plain : ∀ r, e ≠ .ok (.series r)) :
    Keeps apart given (liftM e : MachineM Value) ([·]) :=
  of_quiet (.of_reads lift_reads) fun m m' v found r mem => by
    cases mem_singleton.mp mem
    cases e with
    | error e => cases found
    | ok v =>
      cases found
      exact (plain r rfl).elim

theorem series {x : SeriesM SeriesRef} (builds : Builds x) :
    Keeps apart given (do Pure.pure (.series (← onStore x))) ([·]) :=
  bind (of_builds builds) fun _ => found

theorem plain (plain : ∀ r, v ≠ .series r) : Keeps apart given (Pure.pure v) ([·]) :=
  pure fun r mem => (plain r (mem_singleton.mp mem).symm).elim

end Keeps

variable {given : List Value}

theorem current_keeps : Keeps apart given current fun c => [.series c.timestamps] := by
  intro m sound opens
  have same : m = (outcome current m).2 := current_reads m
  rw [← same]
  refine ⟨.refl sound, fun c found r mem => ?_⟩
  cases mem_singleton.mp mem
  cases running : m.context with
  | none =>
    rw [outcome_current_none running] at found
    cases found
  | some c' =>
    rw [outcome_current running] at found
    obtain rfl := Except.ok.inj found
    exact sound.times _ running

theorem getRegister_keeps (code : Code) : Keeps apart given (getRegister code) ([·]) := by
  intro m sound _
  have same : m = (outcome (getRegister code) m).2 := getRegister_reads code m
  rw [← same]
  refine ⟨.refl sound, fun v found r mem => ?_⟩
  cases mem_singleton.mp mem
  exact sound.registers code.id? r (getRegister_series (Prod.ext found rfl))

theorem keeps_readClosed (apart : Nat → Prop) : ReadClosed (Keeps apart) where
  pure := .pure
  throw := .throw
  bind := .bind
  mono := .mono
  get _ rest := .bind (.of_reads .get) rest
  tryCatch := .tryCatch
  reads reads := .of_reads (onStore_reads reads)
  current := current_keeps
  register := getRegister_keeps

theorem positionSize_told {b : Broker} {r : SeriesRef} (size : b.positionSize = .ok (.series r)) :
    b.told (.series r) := by
  unfold Broker.positionSize at size
  split at size
  next => cases size
  next l _ =>
    have summed : ∀ (orders : List Order) (v : Value), (∀ r, v ≠ .series r) →
        orders.foldlM (fun s o => Value.arith .add s o.qty) v ≠ .ok (.series r) := by
      intro orders
      induction orders with
      | nil => exact fun v plain h => plain r (Except.ok.inj h)
      | cons o orders ih =>
        intro v plain h
        obtain ⟨w, added, h⟩ := bind_eq_ok h
        exact ih w (fun r same => Value.arith_ne_series _ _ _ r (same ▸ added)) h
    exact (summed l.holdings (.float 0.0) nofun size).elim
  next size' delivered book =>
    cases size
    exact ⟨delivered, book⟩

theorem positionSize_keeps : Keeps apart given positionSize ([·]) := by
  intro m sound
  rw [positionSize, get_bind]
  refine (?_ : Keeps apart given _ ([·])) m sound
  split
  next => exact .plain (by simp)
  next b here =>
    refine .bind (.lift fun r size => sound.told r ⟨b, here, positionSize_told size⟩) fun size =>
      .bind (.of_reads bar_reads) fun _ => ?_
    split
    · exact .bind (.of_reads barCount_reads) fun _ => .series (SeriesRef.mutable_builds _ _)
    · exact .found

theorem userInput_keeps (code : Code) (a : Arguments)
    (typed : ∀ given type v, Keeps apart (v :: given) (typedInput type v) ([·])) :
    Keeps apart (a.map Prod.snd ++ given) (userInput code a) ([·]) := by
  intro m sound
  rw [userInput, get_bind]
  refine (?_ : Keeps apart _ _ ([·])) m sound
  refine .bind (.of_reads (truth_reads _)) fun any => ?_
  split
  · refine .bind ((keeps_readClosed apart).inputTitle _ code a) fun title => .bind_lift fun v found => ?_
    refine .bind (.of_reads .get) fun _ => (typed [] _ v).mono fun r mem => ?_
    exact (sound.inputs _ r (mem_singleton.mp mem ▸ found)).elim
  · exact (keeps_readClosed apart).value a _

theorem keeps_buildClosed (apart : Nat → Prop) : BuildClosed (Keeps apart) where
  toReadClosed := keeps_readClosed apart
  builds := .of_builds
  brings := .of_brings
  grows grows := .of_plain (onStore_quiet grows)
  header _ := .of_plain fun m => Tolerant.header m _
  outputs _ := .of_plain fun m => Tolerant.outputs m _
  fills _ := .of_plain fun m => Tolerant.fills m _
  act a := .of_plain (withBroker_quiet (Broker.addAction_remembers a))
  enter kws := .of_plain (withBroker_quiet (Broker.entry_remembers kws))
  position := positionSize_keeps
  userInput := userInput_keeps

theorem variableValue_keeps {v : Variable} (live : v.folded? = none) :
    Keeps apart given (variableValue v) ([·]) := by
  have keeps := (keeps_buildClosed apart).variableValue given v
  rwa [live] at keeps

theorem call_keeps (code : Code) (name : String) (fn : Function) (args : List Value) (named : Fields) :
    Keeps apart (givenTo args named) (call code name fn args named) ([·]) :=
  (keeps_buildClosed apart).call code name fn args named

theorem binary_keeps (op : BinaryOp) (a b : Value) : Keeps apart (b :: a :: given) (binary op a b) ([·]) :=
  (keeps_buildClosed apart).binary given op a b

theorem unary_keeps (op : UnaryOp) (v : Value) : Keeps apart (v :: given) (unary op v) ([·]) :=
  (keeps_buildClosed apart).unary given op v

theorem copied_keeps (n : Nat) (v : Value) : Keeps apart given (copied n v) fun r => [.series r] :=
  (keeps_buildClosed apart).copied given n v

theorem started_keeps (c : SeriesRef) (v : Value) : Keeps apart given (started c v) fun r => [.series r] :=
  (keeps_buildClosed apart).started given c v

end Machine

end PineEngine
