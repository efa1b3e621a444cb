import PineEngine.Proofs.Denoting
import PineEngine.Proofs.Making

/-! # Operations in a machine

The operators, the sources and the functions of whole series in a machine whose series are level: each gives what it
stands for on the market of the machine, and changes nothing but the store, which grows.
-/

namespace PineEngine

open Script Builtin Computation SeriesRef Column Indicator

namespace Answers

variable {σ α β γ δ : Type} {x : Computation σ α} {s : σ} {e : Except Fault β}

theorem map {f : β → γ} {Q : γ → α → σ → Prop} (answers : Answers x s e fun b a s' => Q (f b) a s') :
    Answers x s (e.map f) Q := by
  cases e with
  | error | ok => exact answers

theorem reads {e : Except Fault α} {Q : α → α → σ → Prop} (reads : outcome x s = (e, s)) (holds : ∀ a, e = .ok a → Q a a s) :
    Answers x s e Q := by
  cases e with
  | error e =>
    intro a s' ran
    cases reads.symm.trans ran
  | ok a => exact ⟨a, s, reads, holds a rfl⟩

theorem alike {R : α → β → Prop} {e' : Except Fault α} {f : α → Computation σ γ} {g : β → Except Fault δ}
    {T : δ → γ → σ → Prop} (reads : outcome x s = (e', s)) (alike : Builtin.Alike R e' e)
    (rest : ∀ a b, e = .ok b → R a b → Answers (f a) s (g b) T) : Answers (x >>= f) s (e >>= g) T := by
  cases alike with
  | ok related => exact step reads (rest _ _ rfl related)
  | argument | error =>
    intro c s' ran
    rw [bind_error reads] at ran
    cases ran

end Answers

namespace Machine

/-- A machine gives what an operand stands for, and only its store has grown. -/
structure Produces (n : Nat) (m : Machine) (x : Operand) (v : Value) (m' : Machine) : Prop where
  same : m' = { m with store := m'.store }
  grows : m.store.Grows m'.store
  level : m'.store.Level n
  stands : m'.store.Stands v x

variable {n : Nat} {m m' : Machine} {v w : Value} {x y : Operand}

theorem Produces.trans {m'' : Machine} (first : Produces n m x v m') (second : Produces n m' y w m'') :
    Produces n m y w m'' :=
  ⟨by rw [second.same, first.same], Trans.trans first.grows second.grows, second.level, second.stands⟩

theorem outcome_reading {α : Type} {x : SeriesM α} {e : Except Fault α} {m : Machine}
    (reads : outcome x m.store = (e, m.store)) : outcome (onStore x) m = (e, m) := by
  rw [outcome_onStore, reads]

theorem onStore_answers {α β : Type} {x : SeriesM α} {e : Except Fault β} {Q : β → α → Store → Prop}
    (answers : Answers x m.store e Q) :
    Answers (onStore x) m e fun b a m' => m' = { m with store := m'.store } ∧ Q b a m'.store := by
  cases e with
  | error e =>
    intro a m' ran
    obtain ⟨s, done, _⟩ := onStore_eq_ok ran
    exact answers a s done
  | ok b =>
    obtain ⟨a, s, ran, holds⟩ := answers
    exact ⟨a, { m with store := s }, by rw [outcome_onStore, ran], rfl, holds⟩

theorem series_produces {op : SeriesM SeriesRef} {e : Except Fault Column}
    (makes : Answers op m.store e (Store.Makes n m.store)) :
    Answers (do pure (.series (← onStore op))) m e fun c v m' => Produces n m (.column c) v m' :=
  .andThen (onStore_answers makes) fun _ _ _ ⟨same, makes⟩ =>
    .pure ⟨same, makes.grows, makes.level, .series makes.present makes.column⟩

theorem pure_produces (level : m.store.Level n) (stands : m.store.Stands v x) :
    Answers (pure v) m (.ok x) (Produces n m) :=
  .pure ⟨rfl, Std.Refl.refl _, level, stands⟩

theorem single_produces (level : m.store.Level n) {e : Except Fault Value} (single : ∀ v, e = .ok v → v.isSingle) :
    Answers (liftM e : MachineM Value) m (e.map .single) (Produces n m) := by
  cases e with
  | error e => exact .throw _ _
  | ok v => exact pure_produces level (.single (single v rfl))

theorem anySeries_eq {s : Store} (left : s.Stands v x) (right : s.Stands w y) :
    anySeries v w = (x.isColumn || y.isColumn) := by
  cases left with
  | series => cases right <;> rfl
  | single single =>
    cases right with
    | series => cases v <;> rfl
    | single single' =>
      cases v with
      | series r => cases single
      | _ =>
        cases w with
        | series r => cases single'
        | _ => rfl

section

variable (level : m.store.Level n)

include level

theorem binary_produces (op : BinaryOp) {known known' : Option Value} (left : m.store.Stands v x)
    (right : m.store.Stands w y) (meets : x.Meets n known) (meets' : y.Meets n known') :
    Answers (binary op v w) m (op.meaning x y) (Produces n m) := by
  have either := anySeries_eq left right
  by_cases columns : x.isColumn || y.isColumn
  · rw [op.meaning_columns columns]
    rw [columns] at either
    have combined {f : Operand → Operand → Except Fault Column} (blends : Blends f) :=
      series_produces (combine_makes level blends left right columns)
    refine .map ?_
    cases op with
    | index =>
      cases left with
      | single single =>
        cases v with
        | series r => cases single
        | _ => exact .throw _ _
      | series present column =>
        cases right with
        | series => exact .throw _ _
        | single single =>
          have shifted (offset : Int) := series_produces (shift_makes level present offset)
          rw [column] at shifted
          cases w with
          | int i => exact shifted i
          | bool b => cases b <;> exact shifted _
          | series r => cases single
          | _ => exact .throw _ _
    | eq | neq | gt | ge | lt | le =>
      rw [binary, Machine.compare, if_pos either]
      exact combined (compare_blends _)
    | add | sub | mul | div | mod =>
      rw [binary, Machine.arith, if_pos either]
      exact combined (arith_blends _)
  · cases meets with
    | column => exact (columns rfl).elim
    | number number =>
      cases meets' with
      | column => exact (columns rfl).elim
      | number number' =>
        cases left
        cases right
        rw [binary_numbers op number number']
        exact single_produces level fun u h =>
          Value.single_of_number (BinaryOp.ofNumbers_number number number' h)

theorem unary_produces (op : UnaryOp) {known : Option Value} (stands : m.store.Stands v x) (meets : x.Meets n known) :
    Answers (unary op v) m (op.meaning x) (Produces n m) := by
  cases meets with
  | number number =>
    cases stands
    rw [unary_number op number]
    exact single_produces level fun u h => Value.single_of_number (UnaryOp.ofNumber_number number h)
  | column =>
    cases stands with
    | @series r _ present column =>
      have mapped {f : Column → Except Fault Column} (keeps : ∀ c, f (m.store.column r) = .ok c → c.Level n) :=
        series_produces ((mapColumn_adds level present keeps).mono fun _ _ _ adds => adds.makes level)
      have full := level.column r present
      subst column
      refine .map ?_
      cases op with
      | plus => exact pure_produces level (.series present rfl)
      | not => exact mapped fun _ => negation_level full
      | minus => exact mapped fun _ => signs_level full

theorem sourceSeries_answers (s : Source) {vs : List Value} (length : vs.length = n) (single : ∀ v ∈ vs, v.isSingle) :
    Answers (sourceSeries s vs) m (ofValues vs) fun c r m' =>
      m' = { m with store := m'.store } ∧ Store.Makes n m.store c r m'.store := by
  subst length
  refine .readThen (outcome_liftM _ m) fun c made => onStore_answers ?_
  exact (make_adds (level_ofValues single made) _ _).mono fun _ _ _ adds => adds.makes level

theorem source_produces (bars : m.market.Bars n) {s : Source} (price : s ≠ .time) :
    Answers (source s) m (prices m.market s) (Produces n m) := by
  rw [source_eq price]
  refine .step (outcome_get m) (.read (outcome_liftM _ m) fun vs h => ?_)
  obtain ⟨⟨length, kinds⟩, _⟩ := sourceEntries_first bars (Nat.le_refl n) price h
  have single (v : Value) (mem : v ∈ vs) : v.isSingle := Value.single_of_machine (by rw [kinds v mem]; nofun)
  exact .bind (sourceSeries_answers level s length single) fun _ _ _ ⟨same, makes⟩ =>
    .pure ⟨same, makes.grows, makes.level, .series makes.present makes.column⟩

end

section

variable {s : Store} {sig : Signature} {args : List Value} {named : Fields}
  {xs : List Operand} {ys : List (String × Operand)}

theorem accept_stands (names : Value → String) (p : Parameter) (stands : s.Stands v x) :
    Alike s.Stands (p.accept names v) (p.take x) := by
  cases stands with
  | single single =>
    have alike : Alike Eq (p.accept names v) (p.accept (fun _ => "") v) := accept_alike p v
    have taken (w : Value) (accepted : p.accept names v = .ok w) : w.isSingle := accept_single single accepted
    rw [Parameter.take]
    generalize p.accept names v = e at alike taken ⊢
    generalize p.accept (fun _ => "") v = e' at alike ⊢
    cases alike with
    | ok same => exact .ok (same ▸ .single (taken _ rfl))
    | argument e e' => exact .argument e e'
    | error e => exact .error e
  | series present column =>
    have series : s.Stands (.series _) (.column _) := .series present column
    simp only [Parameter.accept, Parameter.take]
    cases p.kind with
    | none => exact .ok series
    | some k =>
      cases k with
      | series => exact .ok series
      | _ => exact .argument _ _

theorem bind_stands (names : Value → String) (sig : Signature) (positional : List.Forall₂ s.Stands args xs)
    (byName : List.Forall₂ (fun v x => v.1 = x.1 ∧ s.Stands v.2 x.2) named ys) :
    Alike (fun a b => ∀ name, s.Stands (a.value name) (b name)) (sig.bind names args named) (sig.take xs ys) := by
  have found (name : String) : s.Stands ((sig.given args named).value name) (operandOf (sig.operands xs ys) name) :=
    operandOf_related (.single rfl) (placed_related _ positional byName name)
  unfold Signature.bind Signature.take
  rw [positional.length_eq]
  split
  · exact .error _
  · have all := mapM_related (fun p => accept_stands names p (found p.name)) sig
    have both := all.bind (f := .ok) (g := fun b => .ok (operandOf b))
      (T := fun (a : Arguments) (b : String → Operand) => ∀ name, s.Stands (a.value name) (b name)) fun a b related =>
        .ok fun name => operandOf_related (.single rfl) (related name)
    rwa [show (_ >>= Except.ok) = _ from bind_pure _] at both

end

section

variable {γ δ : Type} {T : δ → γ → Machine → Prop} {a : Arguments} {name : String}

theorem seriesArg_answers (stands : m.store.Stands (a.value name) x) {f : SeriesRef → MachineM γ}
    {g : Column → Except Fault δ}
    (rest : ∀ r, r.id < m.store.series.size → Answers (f r) m (g (m.store.column r)) T) :
    Answers (liftM (seriesArg a name) >>= f) m (columnOf x >>= g) T := by
  unfold seriesArg
  generalize a.value name = v at stands
  cases stands with
  | series present column =>
    subst column
    exact rest _ present
  | single single =>
    cases v with
    | series r => cases single
    | _ => exact .throw _ _

theorem intArg_answers (stands : m.store.Stands (a.value name) x) {f : Int → MachineM γ} {g : Int → Except Fault δ}
    (rest : ∀ i, wholeOf x = .ok i → Answers (f i) m (g i) T) :
    Answers (liftM (intArg a name) >>= f) m (wholeOf x >>= g) T := by
  have same : intArg a name = wholeOf x := by
    unfold intArg
    generalize a.value name = v at stands
    cases stands <;> rfl
  rw [same]
  exact .read (outcome_liftM _ m) rest

end

section

variable {fn : Function} {args : List Value} {named : Fields} {xs : List Operand} {ys : List (String × Operand)}
  {known : List (Option Value)} {knownNamed : List (String × Option Value)} {γ δ : Type} {T : δ → γ → Machine → Prop}
  (level : m.store.Level n) (bars : m.market.Bars n) (positional : List.Forall₂ m.store.Stands args xs)
  (byName : List.Forall₂ (fun v x => v.1 = x.1 ∧ m.store.Stands v.2 x.2) named ys) {larger : Bool}

theorem outcome_arguments (m : Machine) (sig : Signature) (args : List Value) (named : Fields) :
    outcome (Machine.bind sig args named) m = (sig.bind (typeName m.store) args named, m) := by
  rw [Machine.bind, get_bind, outcome_liftM]

include bars in
theorem bars_answers {f : Nat → MachineM γ} {e : Except Fault δ} (rest : Answers (f n) m e T) :
    Answers (barCount >>= f) m e T := by
  refine .step (a := n) ?_ rest
  rw [← bars.size]
  rfl

include positional byName

theorem arguments_answer {sig : Signature} {f : Arguments → MachineM γ} {g : (String → Operand) → Except Fault δ}
    (rest : ∀ a b, sig.take xs ys = .ok b → (∀ name, m.store.Stands (a.value name) (b name)) →
      Answers (f a) m (g b) T) : Answers (Machine.bind sig args named >>= f) m (sig.take xs ys >>= g) T :=
  .alike (outcome_arguments m sig args named) (bind_stands _ sig positional byName) rest

include level bars

variable (pos : 1 ≤ n)

include pos in
theorem crossing_produces {test : Value × Value → Value × Value → Except Fault Value}
    (single : ∀ {now before u}, test now before = .ok u → u.isSingle)
    (computes : apply fn args named = do
      let a ← Machine.bind fn.signature args named
      let bars ← barCount
      let x ← (seriesArg a "x" : Except Fault SeriesRef)
      pure (.series (← onStore (crossing bars x (a.value "y") test)))) :
    Answers (apply fn args named) m (do
      let a ← Signature.take fn.signature xs ys
      (crossed n test a).map .column) (Produces n m) := by
  rw [computes]
  refine arguments_answer positional byName fun a b _ stands => bars_answers bars (.map ?_)
  refine seriesArg_answers (stands "x") fun r present => ?_
  exact series_produces (crossing_makes level pos present (stands "y") single)

omit bars positional byName in
theorem pivot_produces {b : String → Operand} {a : Arguments} {r : SeriesRef}
    (present : r.id < m.store.series.size)
    (stands : ∀ name ∈ ["leftbars", "rightbars"], m.store.Stands (a.value name) (b name))
    (natural : ∀ name ∈ ["leftbars", "rightbars"], Natural (b name)) :
    Answers (do
      let left ← intArg a "leftbars"
      let right ← intArg a "rightbars"
      pure (.series (← onStore (pivot larger r left right))) : MachineM Value) m (do
      let left ← wholeOf (b "leftbars")
      let right ← wholeOf (b "rightbars")
      pivots larger (m.store.column r) left right) fun c v m' => Produces n m (.column c) v m' := by
  refine intArg_answers (stands "leftbars" (by simp)) fun left h => ?_
  refine intArg_answers (stands "rightbars" (by simp)) fun right given' => ?_
  obtain ⟨left, rfl⟩ := natural "leftbars" (by simp) left h
  obtain ⟨right, rfl⟩ := natural "rightbars" (by simp) right given'
  exact series_produces (pivot_makes level present larger left right)

theorem pivotOf_prices (natural : ∀ b, (do
      let a ← Signature.take neighbourhood xs ys
      let source ← prices m.market (if larger then .high else .low)
      pure fun name => if name = "source" then source else a name) = .ok b →
        ∀ name ∈ ["leftbars", "rightbars"], Natural (b name)) :
    Answers (do
      let a ← Machine.bind neighbourhood args named
      let v ← source (if larger then .high else .low)
      let found ← (match v with
        | .series r => pure (a, r)
        | _ => throw .operands : MachineM (Arguments × SeriesRef))
      let left ← intArg found.1 "leftbars"
      let right ← intArg found.1 "rightbars"
      pure (.series (← onStore (pivot larger found.2 left right))) : MachineM Value) m (do
      let a ← Signature.take neighbourhood xs ys
      let source ← prices m.market (if larger then .high else .low)
      (pivoted larger fun name => if name = "source" then source else a name).map .column) (Produces n m) := by
  have price : (if larger then Source.high else .low) ≠ .time := by cases larger <;> decide
  refine arguments_answer positional byName fun a b taken stands => ?_
  refine .bind_ran (source_produces level bars price) fun x v m₁ found _ produces => ?_
  have counted := natural (fun name => if name = "source" then x else b name) (by rw [taken, found]; rfl)
  cases produces.stands with
  | single single =>
    cases v with
    | series r => cases single
    | _ => exact .throw _ _
  | series present column =>
    subst column
    refine .map ((pivot_produces produces.level present (fun name mem => ?_) counted).mono fun _ _ _ after =>
      produces.trans after)
    have other : name ≠ "source" := by
      rintro rfl
      simp at mem
    rw [if_neg other]
    exact (stands name).grow level produces.grows

theorem pivotOf_produces
    (natural : ∀ b, pivotOperands m.market larger xs ys = .ok b →
      ∀ name ∈ ["leftbars", "rightbars"], Natural (b name)) :
    Answers (pivotOf larger args named) m (do
      let b ← pivotOperands m.market larger xs ys
      (pivoted larger b).map .column) (Produces n m) := by
  have signature : (if larger then Function.pivothigh else .pivotlow).signature =
      needed "source" (some .series) :: neighbourhood := by
    cases larger <;> rfl
  have alike := bind_stands (typeName m.store) (needed "source" (some .series) :: neighbourhood)
    positional byName
  rw [pivotOf, signature, withSource, bindOr]
  simp only [bind_assoc]
  refine .step (outcome_get m) ?_
  unfold pivotOperands at natural ⊢
  generalize Signature.bind (typeName m.store) (needed "source" (some .series) :: neighbourhood) args named = e
    at alike ⊢
  generalize Signature.take (needed "source" (some .series) :: neighbourhood) xs ys = e' at alike natural ⊢
  cases alike with
  | @ok a b stands =>
    simp only [bind_assoc, pure_bind]
    refine .map (seriesArg_answers (stands "source") fun r present => ?_)
    exact pivot_produces level present (fun name _ => stands name) (natural b rfl)
  | argument f f' =>
    simp only [bind_assoc, pure_bind]
    exact pivotOf_prices level bars positional byName natural
  | error f =>
    cases f with
    | argument f =>
      simp only [bind_assoc, pure_bind]
      exact pivotOf_prices level bars positional byName natural
    | _ => exact .throw _ _

variable (knows : Knows n known knownNamed xs ys)

include knows

omit bars in
theorem nz_produces (steady : callSteady .nz known knownNamed) :
    Answers (apply .nz args named) m (do
      let b ← Signature.take Function.nz.signature xs ys
      Function.nz.compute n b) (Produces n m) := by
  refine arguments_answer positional byName fun a b taken stands => ?_
  obtain ⟨⟨v, z, h, substitute, _⟩, u, _, meets⟩ := operands_nz (m := m.market) knows steady taken
  have standsY := stands "y"
  have standsX := stands "x"
  rw [h] at standsY
  have value : a.value "y" = v := by
    generalize a.value "y" = w at standsY
    cases standsY
    rfl
  have either : v = .absent ∧ z = 0.0 ∨ v = .float z := by
    unfold substituteFor at substitute
    split at substitute
    next same =>
      cases substitute
      exact .inl ⟨Operand.single.inj same, rfl⟩
    next same =>
      cases substitute
      exact .inr (Operand.single.inj same)
    next => cases substitute
  have replaces : Answers (onStore (Indicator.nz (a.value "x") (.float z))) m (replaced (.float z) (b "x"))
      (Produces n m) := by
    generalize a.value "x" = w at standsX
    generalize b "x" = x at standsX meets
    cases meets with
    | column =>
      cases standsX with
      | series present column =>
        subst column
        refine .map ((onStore_answers (nz_makes level rfl present)).mono ?_)
        rintro _ _ m' ⟨same, d, rfl, makes⟩
        exact ⟨same, makes.grows, makes.level, .series makes.present makes.column⟩
    | number number =>
      cases standsX with
      | single single =>
        have reads : outcome (Indicator.nz w (.float z)) m.store = (orElse (.float z) w, m.store) := by
          have step : Indicator.nz w (.float z) =
              (liftM w.isNaN >>= fun b => pure (if b then .float z else w) : SeriesM Value) := by
            cases w <;> cases number <;> rfl
          rw [step]
          exact outcome_bind_reading (outcome_lift _ _) fun _ => outcome_pure _ _
        refine .map (.reads (outcome_reading reads) fun u h => ?_)
        exact ⟨rfl, Std.Refl.refl _, level, .single (orElse_single rfl single h)⟩
  have computes : Function.nz.compute n b = replaced (.float z) (b "x") := by
    rw [Function.compute, h, substitute]
    rfl
  rw [computes, value]
  rcases either with ⟨rfl, rfl⟩ | rfl
  · exact replaces
  · exact replaces

include pos in
theorem apply_produces (steady : callSteady fn known knownNamed) :
    Answers (apply fn args named) m (fn.meaning m.market xs ys) (Produces n m) := by
  rw [Function.meaning, bars.size]
  cases fn with
  | barssince =>
    refine arguments_answer positional byName fun a b _ stands => bars_answers bars (.map ?_)
    exact series_produces (barssince_makes level (stands "condition"))
  | valuewhen =>
    refine arguments_answer positional byName fun a b _ stands => bars_answers bars (.map ?_)
    refine seriesArg_answers (stands "source") fun r present => intArg_answers (stands "occurrence") fun i _ => ?_
    exact series_produces (valuewhen_makes level (stands "condition") present i)
  | cross => exact crossing_produces level bars positional byName pos crossTest_single rfl
  | crossover | crossunder => exact crossing_produces level bars positional byName pos turnTest_single rfl
  | nz => exact nz_produces level positional byName knows steady
  | offset =>
    refine arguments_answer positional byName fun a b _ stands => .map ?_
    refine seriesArg_answers (stands "source") fun r present => intArg_answers (stands "offset") fun i _ => ?_
    exact series_produces (shift_makes level present i)
  | pivothigh =>
    exact pivotOf_produces level bars positional byName fun b =>
      operands_natural knows (show callLooksBack .pivothigh known knownNamed from steady)
  | pivotlow =>
    exact pivotOf_produces level bars positional byName fun b =>
      operands_natural knows (show callLooksBack .pivotlow known knownNamed from steady)
  | _ => cases steady

include pos in
theorem call_produces (code : Code) (name : String) (steady : callSteady fn known knownNamed) :
    Answers (call code name fn args named) m (fn.meaning m.market xs ys) (Produces n m) := by
  rw [call, role_of_steady steady]
  refine .step (outcome_get m) (.tryCatch (apply_produces level bars positional byName pos knows steady) ?_)
  intro e s v s'
  cases e <;> nofun

end

end Machine

end PineEngine
