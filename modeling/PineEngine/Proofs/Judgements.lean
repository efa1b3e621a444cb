import PineEngine.Machine.Evaluate
import PineEngine.Proofs.Columns
import PineEngine.Proofs.Growth

/-! # Judgements about computations

Some things are said of all that a machine computes: that it respects a relation, that it gives series of the store
only, that it does not see which actions wait. Such a judgement tells which values a computation gives if some values
are given to it. It has to be closed under the few steps that computations are made of (`ReadClosed`, `BuildClosed`),
and then it holds of everything that is built in: of operators, built-in variables and built-in functions, of drawings
and inputs.
-/

namespace PineEngine

open Script Builtin Computation Store List SeriesRef Indicator

namespace Value

theorem arithInts_ne_series (op : ArithOp) (a b : Int) (r : SeriesRef) : arithInts op a b ≠ .ok (.series r) := by
  unfold arithInts
  split
  · nofun
  · nofun
  · nofun
  · split
    · nofun
    · dsimp only
      split <;> nofun
  · split <;> nofun

theorem arithFloats_ne_series (op : ArithOp) (x y : Float) (r : SeriesRef) :
    arithFloats op x y ≠ .ok (.series r) := by
  unfold arithFloats
  split
  · split <;> nofun
  · split <;> nofun
  · nofun

theorem arithPlain_ne_series (op : ArithOp) (a b : Value) (r : SeriesRef) :
    arithPlain op a b ≠ .ok (.series r) := by
  unfold arithPlain
  split
  · nofun
  · nofun
  · intro given
    obtain ⟨_, _, ⟨⟩⟩ := map_eq_ok given
  · split <;> nofun
  · split <;> nofun
  · split <;> nofun
  · split <;> nofun
  · split
    · exact arithInts_ne_series _ _ _ r
    · split
      · intro given
        obtain ⟨_, _, _, _, given⟩ := bind₂_eq_ok given
        exact arithFloats_ne_series _ _ _ r given
      · nofun

theorem arith_ne_series (op : ArithOp) (a b : Value) (r : SeriesRef) : arith op a b ≠ .ok (.series r) := by
  unfold arith
  split
  · split
    · exact arithPlain_ne_series op _ _ r
    · intro given
      obtain ⟨_, _, ⟨⟩⟩ := map_eq_ok given
    · nofun
  · exact arithPlain_ne_series op a b r

theorem compare_ne_series (op : CompareOp) (a b : Value) (r : SeriesRef) : compare op a b ≠ .ok (.series r) := by
  unfold compare
  split
  · split <;> intro given <;> obtain ⟨_, _, ⟨⟩⟩ := map_eq_ok given
  · intro given
    obtain ⟨_, _, ⟨⟩⟩ := map_eq_ok given

theorem negate_ne_series (v : Value) (r : SeriesRef) : v.negate ≠ .ok (.series r) := by
  unfold negate
  split <;> nofun

end Value

def Broker.behind (backlog : List Action) (b : Broker) : Broker :=
  { b with actions := backlog ++ b.actions }

namespace Machine

variable {typeName : Value → String}

/-- The machine with the actions of its broker behind others. -/
def behind (backlog : List Action) (m : Machine) : Machine :=
  { m with broker := m.broker.map (·.behind backlog) }

theorem period_ne_series (v : Value) (r : SeriesRef) : Resolution.read v ≠ .ok (.series r) := by
  unfold Resolution.read
  split
  · nofun
  · intro given
    obtain ⟨⟨n, unit⟩, _, given⟩ := bind_eq_ok given
    dsimp only at given
    split at given
    · exact Value.arith_ne_series _ _ _ r given
    · split at given
      · exact Value.arith_ne_series _ _ _ r given
      · cases given

variable {r : SeriesRef} {v : Value}

theorem convert_series {k : ArgKind} (converted : k.convert? v = .ok (some (.series r))) : v = .series r := by
  unfold ArgKind.convert? at converted
  split at converted
  next =>
    obtain ⟨_, _, same⟩ := map_eq_ok converted
    cases same
  next =>
    obtain ⟨n, _, converted⟩ := bind_eq_ok converted
    split at converted <;> cases converted
  next => split at converted <;> cases converted
  next =>
    split at converted
    · exact Option.some.inj (Except.ok.inj converted)
    · cases converted

theorem accept_series {p : Parameter} (accepted : p.accept typeName v = .ok (.series r)) :
    v = .series r := by
  unfold Parameter.accept at accepted
  split at accepted
  next => split at accepted <;> cases accepted
  next => exact Except.ok.inj accepted
  next =>
    obtain ⟨converted, given, accepted⟩ := bind_eq_ok accepted
    split at accepted
    next =>
      cases accepted
      exact convert_series given
    next => cases accepted

theorem value_mem {args : Arguments} {name : String} (found : args.value name = .series r) :
    .series r ∈ args.map Prod.snd := by
  unfold Arguments.value at found
  cases looked : args.lookup name with
  | none =>
    rw [looked] at found
    cases found
  | some v =>
    rw [looked] at found
    obtain ⟨_, _, rfl, _⟩ := lookup_eq_some_iff.mp looked
    exact mem_map.mpr ⟨(name, v), by simp, found⟩

theorem bind_series {sig : Signature} {args : List Value} {named bound : Arguments}
    (given : sig.bind typeName args named = .ok bound) (mem : .series r ∈ bound.map Prod.snd) :
    .series r ∈ args ++ named.map Prod.snd := by
  have taken : ∀ (ps : Signature) (bound : Arguments),
      ps.mapM (fun p => do pure (p.name, ← p.accept typeName ((sig.given args named).value p.name))) = .ok bound →
        .series r ∈ bound.map Prod.snd → ∃ name, (sig.given args named).value name = .series r := by
    intro ps
    induction ps with
    | nil =>
      intro bound given mem
      cases given
      cases mem
    | cons p ps ih =>
      intro bound given mem
      rw [mapM_cons] at given
      obtain ⟨first, accepted, rest, others, given⟩ := bind₂_eq_ok given
      obtain ⟨v, taken, same⟩ := bind_eq_ok accepted
      cases same
      cases given
      rcases mem_cons.mp mem with here | there
      · exact ⟨p.name, accept_series (taken.trans (congrArg Except.ok here.symm))⟩
      · exact ih rest others there
  unfold Signature.bind at given
  split at given
  · cases given
  · obtain ⟨name, found⟩ := taken sig bound given mem
    have mem := value_mem found
    rw [Signature.given, map_append, mem_append] at mem
    rcases mem with byName | byPlace
    · exact mem_append_right _ (by simpa using byName)
    · obtain ⟨⟨_, _⟩, placed, rfl⟩ := mem_map.mp byPlace
      exact mem_append_left _ (of_mem_zip (mem_reverse.mp placed)).2

def givenTo (args : List Value) (named : Fields) : List Value :=
  args ++ named.map Prod.snd

/-- What is said of a computation, of values that are given to it, and of those that it gives. -/
abbrev Judgement :=
  ∀ {α : Type}, List Value → MachineM α → (α → List Value) → Prop

/-- A judgement is closed under sequences. What is read from the machine does not depend on the actions that wait. -/
structure BindClosed (J : Judgement) : Prop where
  pure {α : Type} {given : List Value} {gives : α → List Value} {a : α}
    (old : ∀ r, .series r ∈ gives a → .series r ∈ given) : J given (pure a) gives
  throw {α : Type} {given : List Value} {gives : α → List Value} (e : Fault) : J given (throw e) gives
  bind {α β : Type} {given : List Value} {gives : α → List Value} {gives' : β → List Value} {x : MachineM α}
    {f : α → MachineM β} (first : J given x gives) (rest : ∀ a, J (gives a ++ given) (f a) gives') :
    J given (x >>= f) gives'
  mono {α : Type} {given more : List Value} {gives : α → List Value} {x : MachineM α} (judged : J given x gives)
    (among : ∀ r, .series r ∈ given → .series r ∈ more) : J more x gives
  get {α : Type} {given : List Value} {gives : α → List Value} {f : Machine → MachineM α}
    (same : ∀ backlog m, f (m.behind backlog) = f m) (rest : ∀ m, J given (f m) gives) : J given (get >>= f) gives

structure ReadClosed (J : Judgement) : Prop extends BindClosed J where
  tryCatch {α : Type} {given : List Value} {gives : α → List Value} {x : MachineM α} {h : Fault → MachineM α}
    (first : J given x gives) (rest : ∀ e, J given (h e) gives) : J given (tryCatch x h) gives
  reads {α : Type} {given : List Value} {x : SeriesM α} (reads : Obeys Eq x) : J given (onStore x) fun _ => []
  current {given : List Value} : J given current fun c => [.series c.timestamps]
  register {given : List Value} (code : Code) : J given (getRegister code) ([·])

/-- A judgement is closed under what everything built in does: it adds series to the store, sets the header, collects
    drawings and gives orders. -/
structure BuildClosed (J : Judgement) : Prop extends ReadClosed J where
  builds {given : List Value} {x : SeriesM SeriesRef} (builds : Builds x) : J given (onStore x) fun r => [.series r]
  brings {given : List Value} {x : SeriesM Value} (brings : Brings given x) : J given (onStore x) ([·])
  grows {α : Type} {given : List Value} {x : SeriesM α} (grows : Obeys Grows x) : J given (onStore x) fun _ => []
  header {given : List Value} (fields : Fields) : J given (modify fun m => { m with header := fields }) fun _ => []
  outputs {given : List Value} (plot : Fields) :
    J given (modify fun m => { m with outputs := m.outputs ++ [plot] }) fun _ => []
  fills {given : List Value} (plot : Fields) :
    J given (modify fun m => { m with fills := m.fills ++ [plot] }) fun _ => []
  act {given : List Value} (a : Action) : J given (withBroker (Broker.addAction a)) fun _ => []
  enter {given : List Value} (kws : Fields) : J given (withBroker (Broker.entry kws)) fun _ => []
  position {given : List Value} : J given positionSize ([·])
  /-- The user gives no series. -/
  userInput {given : List Value} (code : Code) (a : Arguments)
    (typed : ∀ given type v, J (v :: given) (Machine.typedInput type v) ([·])) :
    J (a.map Prod.snd ++ given) (userInput code a) ([·])

variable {J : Judgement} {given : List Value} {α β : Type} {gives : α → List Value}

section Binding

variable (law : BindClosed J)

include law

theorem BindClosed.found : J (v :: given) (Pure.pure v) ([·]) :=
  law.pure fun _ mem => mem_cons.mpr (.inl (mem_singleton.mp mem))

theorem BindClosed.plain (plain : ∀ r, v ≠ .series r) : J given (Pure.pure v) ([·]) :=
  law.pure fun r mem => (plain r (mem_singleton.mp mem).symm).elim

theorem BindClosed.other (a : α) : J given (Pure.pure a) fun _ => [] :=
  law.pure nofun

theorem BindClosed.more {x : MachineM α} (judged : J given x gives) : J (v :: given) x gives :=
  law.mono judged fun _ mem => mem_cons_of_mem _ mem

theorem BindClosed.lift {e : Except Fault α}
    (old : ∀ a, e = .ok a → ∀ r, .series r ∈ gives a → .series r ∈ given) : J given (liftM e : MachineM α) gives := by
  cases e with
  | error e => exact law.throw e
  | ok a => exact law.pure (old a rfl)

theorem BindClosed.lift_plain {e : Except Fault Value} (plain : ∀ r, e ≠ .ok (.series r)) :
    J given (liftM e : MachineM Value) ([·]) :=
  law.lift fun _ found r mem => (plain r (mem_singleton.mp mem ▸ found)).elim

theorem BindClosed.lift_other (e : Except Fault α) : J given (liftM e : MachineM α) fun _ => [] :=
  law.lift fun _ _ _ => nofun

theorem BindClosed.mapM {f : α → MachineM β} (each : ∀ given a, J given (f a) fun _ => [])
    (as : List α) : J given (as.mapM f) fun _ => [] := by
  induction as with
  | nil => exact law.other _
  | cons a as ih =>
    rw [mapM_cons]
    exact law.bind (each _ a) fun _ => law.bind ih fun _ => law.other _

end Binding

section Reading

variable (law : ReadClosed J)

include law

theorem ReadClosed.barCount (given : List Value) : J given Machine.barCount fun _ => [] :=
  law.get (fun _ _ => rfl) fun _ => law.other _

theorem ReadClosed.bar (given : List Value) : J given Machine.bar fun _ => [] :=
  law.bind law.current fun _ => law.other _

theorem ReadClosed.isLastStep : J given Machine.isLastStep fun _ => [] :=
  law.bind (law.bar _) fun _ => law.bind (law.barCount _) fun _ => law.other _

section

variable (given : List Value) (v : Value)

theorem ReadClosed.printedValue : J given (Machine.printedValue v) fun _ => [] := by
  unfold Machine.printedValue
  split
  · exact law.get (fun _ _ => rfl) fun _ => law.bind law.current fun _ => by split <;> exact law.other _
  · exact law.other _

theorem ReadClosed.truth : J given (Machine.truth v) fun _ => [] := by
  unfold Machine.truth
  split
  · refine law.bind (law.reads (column_reads _)) fun _ => ?_
    split
    · exact law.other _
    · exact law.throw _
  · exact law.other _

theorem ReadClosed.now : J given (Machine.now v) fun _ => [] := by
  unfold Machine.now
  split
  · exact law.bind (law.bar _) fun _ => law.reads (get_reads _ _)
  · exact law.other _

theorem ReadClosed.firstEntry : J given (Machine.firstEntry v) fun _ => [] := by
  unfold Machine.firstEntry
  split
  · exact law.reads (get_reads _ _)
  · exact law.other _

theorem ReadClosed.sample : J given (Machine.sample v) fun _ => [] := by
  unfold Machine.sample
  split
  · exact law.reads (default_reads _)
  · exact law.other _

theorem ReadClosed.startValue : J given (Machine.startValue v) fun _ => [] :=
  law.bind (law.sample _ v) fun v => by
    split
    · exact law.other _
    · exact law.other _
    · exact law.other _
    · exact law.other _
    · exact law.bind (law.printedValue _ _) fun _ => law.throw _

end

theorem ReadClosed.clock (part : ClockPart) : J given (Machine.clock part) fun _ => [] :=
  law.bind law.current fun _ => law.bind (law.reads (get_reads _ _)) fun _ => by
    cases part with
    | second => exact law.lift_other _
    | _ => exact law.bind (law.lift_other _) fun _ => law.lift_other _

theorem ReadClosed.arguments (sig : Signature) (args : List Value) (named : Fields) :
    J (givenTo args named) (Machine.bind sig args named) (·.map Prod.snd) :=
  law.get (fun _ _ => rfl) fun _ => law.lift fun _ bound _ => bind_series bound

theorem ReadClosed.arguments_other (given : List Value) (sig : Signature) (args : List Value) (named : Fields) :
    J given (Machine.bind sig args named) fun _ => [] :=
  law.get (fun _ _ => rfl) fun _ => law.lift_other _

theorem ReadClosed.bindOr (sig other : Signature) (args : List Value) (named : Fields) :
    J given (Machine.bindOr sig other args named) fun _ => [] :=
  law.get (fun _ _ => rfl) fun _ => by
    split
    · exact law.other _
    · exact law.bind (law.arguments_other _ _ args named) fun _ => law.other _
    · exact law.throw _

theorem ReadClosed.value (a : Arguments) (name : String) :
    J (a.map Prod.snd ++ given) (Pure.pure (a.value name)) ([·]) :=
  law.pure fun _ mem => mem_append_left _ (value_mem (mem_singleton.mp mem).symm)

theorem ReadClosed.isDue (a : Arguments) : J given (Machine.isDue a) fun _ => [] := by
  unfold Machine.isDue
  split
  · exact law.other _
  · exact law.bind (law.now _ _) fun _ => law.lift_other _

theorem ReadClosed.askLibrary (fn : LibraryFunction) (sources : List SeriesRef) (length : Int)
    (finish : Column → Except Fault Column) : J given (Machine.askLibrary fn sources length finish) fun _ => [] :=
  law.bind (law.mapM (fun _ _ => law.reads (column_reads _)) _) fun _ => law.get (fun _ _ => rfl) fun _ => by
    split
    · exact law.bind (law.lift_other _) fun _ => law.other _
    · exact law.other _

theorem ReadClosed.seriesArg (a : Arguments) (name : String) :
    J (a.map Prod.snd ++ given) (liftM (Machine.seriesArg a name) : MachineM SeriesRef) fun r => [.series r] :=
  law.lift fun r found r' mem => by
    cases mem_singleton.mp mem
    unfold Machine.seriesArg at found
    split at found
    next here =>
      cases found
      exact mem_append_left _ (value_mem here)
    next => cases found

theorem ReadClosed.inputTitle (given : List Value) (code : Code) (a : Arguments) :
    J given (Machine.inputTitle code a) fun _ => [] := by
  have default : J given (defaultTitle code) fun _ => [] := by
    refine law.get (fun _ _ => rfl) fun _ => ?_
    split
    · exact law.other _
    · exact law.throw _
  unfold Machine.inputTitle
  split
  · exact law.other _
  · exact law.bind default fun _ => law.other _

theorem ReadClosed.describeInput (code : Code) (a : Arguments) :
    J given (Machine.describeInput code a) ([·]) := by
  have form {given : List Value} : J given (inputForm a) fun _ => [] := by
    unfold inputForm
    split
    · refine law.get (fun _ _ => rfl) fun _ => ?_
      split
      · exact law.bind (law.reads (sourceName_reads _)) fun _ => law.bind (law.truth _ _) fun _ => law.other _
      · exact law.other _
    · exact law.other _
  exact law.bind (law.inputTitle _ code a) fun _ => law.bind form fun _ => law.plain nofun

theorem ReadClosed.paint (plot : Fields) (color transp : Value) :
    J given (Machine.paint plot color transp) fun _ => [] := by
  have last (v : Value) : J given (latest v) fun _ => [] := by
    unfold latest
    split
    · exact law.reads (get_reads _ _)
    · exact law.other _
  have parts (v : Value) : J given (colorParts v) fun _ => [] :=
    law.bind (last v) fun _ => by
      split
      · split <;> exact law.other _
      · split <;> exact law.other _
      · exact law.throw _
  unfold Machine.paint
  split
  · exact law.other _
  · exact law.bind (parts _) fun _ => law.other _

theorem ReadClosed.fade (plot : Fields) (transp : Value) : J given (Machine.fade plot transp) fun _ => [] := by
  unfold Machine.fade
  split
  · exact law.bind (law.lift_other _) fun _ => law.other _
  · exact law.other _

end Reading

section Building

variable (law : BuildClosed J)

include law

theorem BuildClosed.series {x : SeriesM SeriesRef} (builds : Builds x) :
    J given (do Pure.pure (.series (← onStore x))) ([·]) :=
  law.bind (law.builds builds) fun _ => law.found

theorem BuildClosed.sourceSeries (given : List Value) (s : Source) (values : List Value) :
    J given (Machine.sourceSeries s values) fun r => [.series r] :=
  law.bind (law.lift_other _) fun _ => law.builds make_builds

theorem BuildClosed.source (given : List Value) (s : Source) : J given (Machine.source s) ([·]) :=
  law.get (fun _ _ => rfl) fun m => by
    split
    · exact law.bind law.current fun _ => law.found
    · split
      · exact law.bind (law.other _) fun _ => law.bind (law.sourceSeries _ _ _) fun _ => law.found
      · exact law.bind (law.lift_other _) fun _ => law.bind (law.sourceSeries _ _ _) fun _ => law.found

theorem BuildClosed.variableValue (given : List Value) (v : Variable) :
    J given (Machine.variableValue v) fun w => match v.folded? with
      | none => [w]
      | some _ => [] := by
  cases v with
  | constant v => exact law.other _
  | clock part => exact law.clock part
  | mintick => exact law.get (fun _ _ => rfl) fun _ => law.lift_other _
  | source s => exact law.source _ s
  | period => exact law.get (fun _ _ => rfl) fun _ => law.lift_plain (period_ne_series _)
  | tickerId => exact law.get (fun _ _ => rfl) fun _ => law.bind (law.lift_other _) fun _ => law.plain nofun
  | positionSize => exact law.position
  | trueRange | unavailable => exact law.throw _

theorem BuildClosed.withSource (larger : Bool) (sig other : Signature) (args : List Value)
    (named : Fields) : J given (Machine.withSource larger sig other args named) fun _ => [] :=
  law.bind (law.bindOr sig other args named) fun bound => by
    split
    · exact law.bind (law.lift_other _) fun _ => law.other _
    · refine law.bind (law.source _ _) fun v => ?_
      split
      · exact law.other _
      · exact law.throw _

theorem BuildClosed.computed (r : SeriesRef) (answer : Except LibraryFault Column) :
    J given (Machine.computed r answer) ([·]) := by
  unfold Machine.computed
  split
  · exact law.series (.bind (valid_reads r) fun _ => make_builds)
  · exact law.throw _
  · exact law.throw _

theorem BuildClosed.computedOrCopy (r : SeriesRef) (answer : Except LibraryFault Column) :
    J given (Machine.computedOrCopy r answer) ([·]) := by
  unfold Machine.computedOrCopy
  split
  · exact law.series (copy_builds r)
  · exact law.computed r answer

theorem BuildClosed.shift (r : SeriesRef) (n : Int) :
    J (.series r :: given) (do Pure.pure (.series (← onStore (r.shift n)))) ([·]) := by
  by_cases moves : n = 0
  · rw [moves, shift_zero]
    exact law.found
  · exact law.series (shift_builds r moves)

theorem BuildClosed.order (a : Arguments) {x : MachineM Unit}
    (judged : ∀ given, J given x fun _ => []) : J given (do
      if ← Machine.isDue a then x
      Pure.pure Value.absent) ([·]) :=
  law.bind (law.isDue a) fun due => by
    split
    · exact law.bind (judged _) fun _ => law.plain nofun
    · exact law.plain nofun

theorem BuildClosed.apply (fn : Function) (args : List Value) (named : Fields) :
    J (givenTo args named) (Machine.apply fn args named) ([·]) := by
  have bound : J (givenTo args named) (Machine.bind fn.signature args named) (·.map Prod.snd) :=
    law.arguments fn.signature args named
  have arg {α : Type} {given : List Value} (e : Except Fault α) : J given (liftM e : MachineM α) fun _ => [] :=
    law.lift_other e
  cases fn with
  | study | strategy => exact law.bind bound fun a => law.bind (law.header a) fun _ => law.plain nofun
  | input => exact law.bind bound fun a => law.value a _
  | color => exact law.bind bound fun _ => law.plain nofun
  | security => exact law.bind bound fun _ => law.throw _
  | close | closeAll => exact law.bind bound fun a => law.order a fun _ => law.act _
  | entry =>
    refine law.get (fun backlog m => ?_) fun m => ?_
    · rw [behind]
      cases m.broker <;> rfl
    · split
      · exact law.bind bound fun a => law.order a fun _ => law.enter a
      · exact law.plain nofun
  | plot | plotshape | hline | fill | drawing | bgcolor => exact law.plain nofun
  | abs => exact law.bind bound fun _ => law.mono (law.brings (abs_brings _)) nofun
  | barssince =>
    exact law.bind bound fun _ => law.bind (law.barCount _) fun _ => law.series (barssince_builds _ _)
  | cross | crossover | crossunder =>
    exact law.bind bound fun _ => law.bind (law.barCount _) fun _ => law.bind (arg _) fun _ =>
      law.series (crossing_builds _ _ _ _)
  | ema | sma | wma | stdev =>
    exact law.bind bound fun _ => law.bind (arg _) fun _ => law.bind (arg _) fun _ =>
      law.bind (law.askLibrary _ _ _ _) fun _ => law.computedOrCopy _ _
  | linreg =>
    exact law.bind bound fun _ => law.bind (arg _) fun _ => law.bind (arg _) fun _ => law.bind (arg _) fun _ =>
      law.bind (law.askLibrary _ _ _ _) fun _ => law.computedOrCopy _ _
  | stoch =>
    exact law.bind bound fun _ => law.bind (arg _) fun _ => law.bind (arg _) fun _ => law.bind (arg _) fun _ =>
      law.bind (arg _) fun _ => law.bind (law.askLibrary _ _ _ _) fun _ => law.computedOrCopy _ _
  | highest | lowest =>
    exact law.bind (law.withSource _ _ _ _ _) fun _ => law.bind (arg _) fun _ =>
      law.bind (law.askLibrary _ _ _ _) fun _ => law.computed _ _
  | rsi =>
    refine law.bind bound fun _ => law.bind (arg _) fun r => law.bind (law.reads (get_reads r _)) fun _ =>
      law.bind (arg _) fun isNaN => ?_
    split
    · exact law.series (copy_builds r)
    · exact law.bind (arg _) fun _ => law.bind (law.askLibrary _ _ _ _) fun _ => law.computed r _
  | max | min => exact law.bind bound fun _ => law.series (extreme_builds _ _ _)
  | na => exact law.bind bound fun _ => law.mono (law.brings (na_brings _)) nofun
  | nz =>
    refine law.bind bound fun a => law.mono (law.brings (nz_brings _ _)) fun r mem => ?_
    refine mem_append_left _ ?_
    rcases mem_cons.mp mem with value | mem
    · exact value_mem value.symm
    · have substitute := mem_singleton.mp mem
      split at substitute
      · cases substitute
      · exact value_mem substitute.symm
  | offset =>
    exact law.bind bound fun a => law.bind (law.seriesArg a _) fun r => law.bind (arg _) fun n => law.shift r n
  | pivothigh | pivotlow =>
    exact law.bind (law.withSource _ _ _ _ _) fun _ => law.bind (arg _) fun _ => law.bind (arg _) fun _ =>
      law.series (pivot_builds _ _ _ _)
  | rma =>
    exact law.bind bound fun _ => law.bind (arg _) fun _ => law.bind (arg _) fun _ =>
      law.series (rma_builds _ _)
  | timestamp => exact law.bind (law.arguments_other _ _ _ _) fun _ => law.bind (arg _) fun _ => law.plain nofun
  | valuewhen =>
    exact law.bind bound fun _ => law.bind (law.barCount _) fun _ => law.bind (arg _) fun _ =>
      law.bind (arg _) fun _ => law.series (valuewhen_builds _ _ _ _)
  | order | unavailable => exact law.throw _

theorem BuildClosed.typedInput (type : String) (v : Value) :
    J (v :: given) (Machine.typedInput type v) ([·]) := by
  unfold Machine.typedInput
  split
  · exact law.bind (law.truth _ v) fun _ => law.plain nofun
  · exact law.bind (law.lift_other _) fun _ => law.plain nofun
  · exact law.bind (law.lift_other _) fun _ => law.plain nofun
  · split
    · split
      · exact law.source _ _
      · exact law.throw _
    · exact law.throw _
  · exact law.found

theorem BuildClosed.askInput (code : Code) (args : List Value) (named : Fields) :
    J (givenTo args named) (Machine.askInput code args named) ([·]) :=
  law.bind (law.arguments _ args named) fun a => law.get (fun _ _ => rfl) fun _ => by
    split
    · exact law.describeInput code a
    · exact law.userInput code a fun _ => law.typedInput

theorem BuildClosed.drawnSeries (v : Value) : J given (Machine.drawnSeries v) fun _ => [] := by
  unfold Machine.drawnSeries
  split
  · exact law.other _
  · exact law.bind (law.barCount _) fun _ => law.grows (replicate_builds _ v).grows

theorem BuildClosed.moved (r : SeriesRef) (offset : Value) : J given (Machine.moved r offset) fun _ => [] := by
  unfold Machine.moved
  split
  · exact law.grows (shift_grows r _)
  · exact law.other _

theorem BuildClosed.draw (fn : Function) (args : List Value) (named : Fields) :
    J (givenTo args named) (Machine.draw fn args named) ([·]) := by
  have drawn {f : Arguments → MachineM Value} (judged : ∀ a, J (givenTo args named) (f a) ([·])) :
      J (givenTo args named) (do
        if ← Machine.isLastStep then f (← Machine.bind fn.signature args named) else Pure.pure .absent) ([·]) :=
    law.bind law.isLastStep fun isLast => by
      split
      · exact law.bind (law.arguments_other _ _ args named) judged
      · exact law.plain nofun
  have applied : J (givenTo args named) (Machine.apply fn args named) ([·]) := law.apply fn args named
  cases fn with
  | plot =>
    exact drawn fun a => law.bind (law.drawnSeries _) fun _ => law.bind (law.paint _ _ _) fun _ =>
      law.bind (law.fade _ _) fun _ => law.bind (law.moved _ _) fun _ => law.bind (law.outputs _) fun _ =>
        law.plain nofun
  | plotshape =>
    exact drawn fun a => law.bind (law.drawnSeries _) fun _ => law.bind (law.paint _ _ _) fun _ =>
      law.bind (law.fade _ _) fun _ => law.bind (law.moved _ _) fun _ => law.plain nofun
  | hline => exact drawn fun a => law.bind (law.outputs _) fun _ => law.plain nofun
  | fill =>
    exact drawn fun a => law.bind (law.lift_other _) fun _ => law.bind (law.lift_other _) fun _ =>
      law.bind (law.paint _ _ _) fun _ => law.bind (law.fade _ _) fun _ => law.bind (law.fills _) fun _ =>
        law.plain nofun
  | _ => exact applied

theorem BuildClosed.call (code : Code) (name : String) (fn : Function) (args : List Value)
    (named : Fields) : J (givenTo args named) (Machine.call code name fn args named) ([·]) := by
  unfold Machine.call
  split
  · exact law.askInput code args named
  · refine law.get (fun _ _ => rfl) fun m => law.tryCatch ?_ fun e => ?_
    · split
      · exact law.draw fn args named
      · exact law.apply fn args named
    · split <;> exact law.throw _

theorem BuildClosed.arith (op : ArithOp) (a b : Value) : J given (Machine.arith op a b) ([·]) := by
  unfold Machine.arith
  split
  · exact law.series (combine_builds _ a b)
  · exact law.lift_plain (Value.arith_ne_series op a b)

variable (given : List Value)

theorem BuildClosed.compare (op : CompareOp) (a b : Value) : J given (Machine.compare op a b) ([·]) := by
  unfold Machine.compare
  split
  · exact law.series (combine_builds _ a b)
  · exact law.lift_plain (Value.compare_ne_series op a b)

theorem BuildClosed.binary (op : BinaryOp) (a b : Value) : J (b :: a :: given) (Machine.binary op a b) ([·]) := by
  cases op with
  | index =>
    refine law.more ?_
    show J (a :: given) (lookBack a b) _
    unfold lookBack
    split
    · split
      · exact law.shift _ _
      · exact law.shift _ _
      · exact law.throw _
    · exact law.throw _
  | eq | neq | gt | ge | lt | le => exact law.compare _ _ a b
  | add | sub | mul | div | mod => exact law.arith _ a b

theorem BuildClosed.unary (op : UnaryOp) (v : Value) : J (v :: given) (Machine.unary op v) ([·]) := by
  unfold Machine.unary
  split
  · exact law.found
  · exact law.series (logicalNot_builds _)
  · exact law.series (sign_builds _)
  · exact law.plain nofun
  · exact law.lift_plain (Value.negate_ne_series _)

theorem BuildClosed.copied (n : Nat) (v : Value) : J given (Machine.copied n v) fun r => [.series r] := by
  unfold Machine.copied
  split
  · exact law.builds (copy_builds _)
  · exact law.builds (replicate_builds n v)

theorem BuildClosed.repeated (n : Nat) (v : Value) : J given (Machine.repeated n v) fun _ => [] := by
  unfold Machine.repeated
  split
  · exact law.other _
  · exact law.grows (replicate_builds n v).grows

theorem BuildClosed.started (c : SeriesRef) (v : Value) : J given (Machine.started c v) fun r => [.series r] := by
  unfold Machine.started
  split
  · exact law.builds (toMutable_builds _)
  · exact law.bind (law.reads (size_reads c)) fun _ => law.builds (mutable_builds _ _)

end Building

end Machine

end PineEngine
