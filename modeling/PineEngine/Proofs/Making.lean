import PineEngine.Proofs.Windows

/-! # What operations on series make

`Answers` compares a computation with an answer that is known without it: the computation comes to what the answer says,
and fails where the answer is a fault. In a store whose series are level, an operation on series answers as the
operation on columns does: it adds a series with the column that this gives.
-/

namespace PineEngine

open Computation List Column

section

variable {σ α β γ δ ι : Type} {s : σ}

def Answers (x : Computation σ α) (s : σ) (e : Except Fault β) (Q : β → α → σ → Prop) : Prop :=
  match e with
  | .ok b => ∃ a s', outcome x s = (.ok a, s') ∧ Q b a s'
  | .error _ => ∀ a s', outcome x s ≠ (.ok a, s')

namespace Answers

variable {x : Computation σ α} {f : α → Computation σ γ} {g : β → Except Fault δ} {s s' : σ} {a : α} {b : β}
  {e : Except Fault β} {Q Q' : β → α → σ → Prop} {T : δ → γ → σ → Prop}

theorem pure (holds : Q b a s) : Answers (pure a) s (.ok b) Q :=
  ⟨a, s, rfl, holds⟩

theorem throw (fault fault' : Fault) : Answers (throw fault : Computation σ α) s (.error fault') Q :=
  nofun

theorem ok (answers : Answers x s e Q) (ran : outcome x s = (.ok a, s')) : ∃ b, e = .ok b ∧ Q b a s' := by
  cases e with
  | error e => exact (answers a s' ran).elim
  | ok b =>
    obtain ⟨a', s'', ran', holds⟩ := answers
    cases ran.symm.trans ran'
    exact ⟨b, rfl, holds⟩

theorem bind_ran (first : Answers x s e Q)
    (rest : ∀ b a s', e = .ok b → outcome x s = (.ok a, s') → Q b a s' → Answers (f a) s' (g b) T) :
    Answers (x >>= f) s (e >>= g) T := by
  cases e with
  | error e =>
    intro c s' ran
    obtain ⟨a, s₁, here, _⟩ := outcome_bind_eq_ok ran
    exact first a s₁ here
  | ok b =>
    obtain ⟨a, s₁, here, holds⟩ := first
    have after := rest b a s₁ rfl here holds
    unfold Answers at after ⊢
    rw [bind_ok here]
    exact after

theorem bind (first : Answers x s e Q) (rest : ∀ b a s', Q b a s' → Answers (f a) s' (g b) T) :
    Answers (x >>= f) s (e >>= g) T :=
  first.bind_ran fun b a s' _ _ holds => rest b a s' holds

theorem mono (answers : Answers x s e Q) (weaken : ∀ b a s', Q b a s' → Q' b a s') : Answers x s e Q' := by
  cases e with
  | error e => exact answers
  | ok b =>
    obtain ⟨a, s', ran, holds⟩ := answers
    exact ⟨a, s', ran, weaken b a s' holds⟩

theorem step {e : Except Fault δ} (ran : outcome x s = (.ok a, s')) (rest : Answers (f a) s' e T) :
    Answers (x >>= f) s e T := by
  unfold Answers at rest ⊢
  rw [bind_ok ran]
  exact rest

theorem read {g : α → Except Fault δ} {e : Except Fault α} (reads : outcome x s = (e, s))
    (rest : ∀ a, e = .ok a → Answers (f a) s (g a) T) : Answers (x >>= f) s (e >>= g) T := by
  cases e with
  | error e =>
    intro c s' ran
    rw [bind_error reads] at ran
    cases ran
  | ok a => exact step reads (rest a rfl)

theorem andThen_ran {T : β → γ → σ → Prop} (first : Answers x s e Q)
    (rest : ∀ b a s', e = .ok b → outcome x s = (.ok a, s') → Q b a s' → Answers (f a) s' (.ok b) T) :
    Answers (x >>= f) s e T := by
  have both := first.bind_ran (g := .ok) rest
  rwa [show (e >>= Except.ok) = e by cases e <;> rfl] at both

theorem andThen {T : β → γ → σ → Prop} (first : Answers x s e Q)
    (rest : ∀ b a s', Q b a s' → Answers (f a) s' (.ok b) T) : Answers (x >>= f) s e T :=
  first.andThen_ran fun b a s' _ _ holds => rest b a s' holds

theorem readThen {e : Except Fault α} {T : α → γ → σ → Prop} (reads : outcome x s = (e, s))
    (rest : ∀ a, e = .ok a → Answers (f a) s (.ok a) T) : Answers (x >>= f) s e T := by
  have both := read (g := .ok) reads rest
  rwa [show (e >>= Except.ok) = e by cases e <;> rfl] at both

theorem tryCatch {h : Fault → Computation σ α} (answers : Answers x s e Q)
    (fails : ∀ e s a s', outcome (h e) s ≠ (.ok a, s')) : Answers (tryCatch x h) s e Q := by
  cases e with
  | error e =>
    intro a s' ran
    rw [outcome_tryCatch] at ran
    split at ran
    next a₁ s₁ done => exact answers a₁ s₁ done
    next e s₁ _ => exact fails e s₁ a s' ran
  | ok b =>
    obtain ⟨a, s', ran, holds⟩ := answers
    exact ⟨a, s', by rw [outcome_tryCatch, ran], holds⟩

section Loop

variable {f : α → ι → Computation σ α} {g : β → ι → Except Fault β}

theorem foldlM {R : β → α → σ → Prop} (each : ∀ i b a s, R b a s → Answers (f a i) s (g b i) R) (is : List ι) {a : α}
    {b : β} (related : R b a s) : Answers (is.foldlM f a) s (is.foldlM g b) R := by
  induction is generalizing a b s with
  | nil => exact pure related
  | cons i is ih =>
    exact bind (each i b a s related) fun _ _ _ further => ih further

theorem loop {f : α → Nat → Computation σ α} {g : β → Nat → Except Fault β} {R : Nat → β → α → σ → Prop}
    (each : ∀ i b a s, R i b a s → Answers (f a i) s (g b i) (R (i + 1))) (len : Nat) {start : Nat} {a : α} {b : β}
    (related : R start b a s) :
    Answers ((range' start len).foldlM f a) s ((range' start len).foldlM g b) (R (start + len)) := by
  induction len generalizing start a b s with
  | zero => exact pure related
  | succ len ih =>
    rw [range'_succ, foldlM_cons, foldlM_cons, show start + (len + 1) = start + 1 + len by omega]
    exact bind (each start b a s related) fun _ _ _ further => ih further

theorem forM_eq_foldlM {h : ι → Computation σ PUnit} (is : List ι) : is.forM h = is.foldlM (fun _ i => h i) ⟨⟩ := by
  induction is with
  | nil => rfl
  | cons i is ih =>
    exact congrArg (h i >>= ·) (funext fun _ => ih)

end Loop

end Answers

theorem outcome_bind_reading {x : Computation σ α} {f : α → Computation σ β} {e : Except Fault α}
    {g : α → Except Fault β} (first : outcome x s = (e, s)) (rest : ∀ a, outcome (f a) s = (g a, s)) :
    outcome (x >>= f) s = (e >>= g, s) := by
  cases e with
  | error e => exact bind_error first
  | ok a => exact (bind_ok first).trans (rest a)

theorem outcome_mapM_reading {g : α → Computation σ β} {f : α → Except Fault β}
    (each : ∀ a, outcome (g a) s = (f a, s)) (as : List α) : outcome (as.mapM g) s = (as.mapM f, s) := by
  induction as with
  | nil => rfl
  | cons a as ih =>
    rw [mapM_cons, mapM_cons]
    exact outcome_bind_reading (each a) fun b => outcome_bind_reading ih fun bs => outcome_pure _ s

theorem outcome_foldlM_reading {g : β → α → Computation σ β} {f : β → α → Except Fault β}
    (each : ∀ b a, outcome (g b a) s = (f b a, s)) (as : List α) (b : β) :
    outcome (as.foldlM g b) s = (as.foldlM f b, s) := by
  induction as generalizing b with
  | nil => rfl
  | cons a as ih =>
    exact outcome_bind_reading (each b a) ih

end

namespace Store

/-- Every series has a column of its own with `n` single values, all of them valid. -/
structure Level (n : Nat) (s : Store) : Prop extends Straight s where
  valid : ∀ r : SeriesRef, r.id < s.series.size → s.valid r = (n : Int) - 1
  column : ∀ r : SeriesRef, r.id < s.series.size → (s.column r).Level n

/-- What a value stands for: itself, or the column of a series that is there. -/
inductive Stands (s : Store) : Value → Operand → Prop where
  | single {v : Value} (single : v.isSingle) : Stands s v (.single v)
  | series {r : SeriesRef} {c : Column} (present : r.id < s.series.size) (column : s.column r = c) :
      Stands s (.series r) (.column c)

structure Makes (n : Nat) (s : Store) (c : Column) (r : SeriesRef) (s' : Store) : Prop where
  grows : s.Grows s'
  level : s'.Level n
  present : r.id < s'.series.size
  column : s'.column r = c

/-- A series that was just added with a column, and is valid up to an index. -/
structure Adds (n : Nat) (valid : Int) (s : Store) (c : Column) (r : SeriesRef) (s' : Store) : Prop where
  last : r = ⟨s.series.size⟩
  level : c.Level n
  added : ∃ origin, s' = (s.alloc c valid origin).2

variable {n : Nat} {s s' : Store} {r q : SeriesRef} {c : Column} {valid : Int} {v : Value} {x : Operand}

namespace Level

variable (level : s.Level n)

include level

theorem column_eq (grows : s.Grows s') (present : r.id < s.series.size) : s'.column r = s.column r :=
  grows.column_eq present (level.inside present)

theorem filled (present : r.id < s.series.size) : s.filled r = true := by
  have size : (s.column r).size = n := (level.column r present).size
  rw [Store.filled, level.valid r present, size, beq_self_eq_true]

theorem alloc (added : c.Level n) (origin : Origin) : (s.alloc c ((n : Int) - 1) origin).2.Level n := by
  have grows := alloc_grows s c ((n : Int) - 1) origin
  have new (r : SeriesRef) (present : r.id < (s.alloc c ((n : Int) - 1) origin).2.series.size)
      (late : ¬ r.id < s.series.size) : r = ⟨s.series.size⟩ := by
    have size : (s.alloc c ((n : Int) - 1) origin).2.series.size = s.series.size + 1 := by simp [Store.alloc]
    exact congrArg SeriesRef.mk (show r.id = s.series.size by omega)
  refine ⟨level.toStraight.alloc c _ origin, fun r present => ?_, fun r present => ?_⟩
  · by_cases old : r.id < s.series.size
    · rw [Store.valid, grows.head_eq old]
      exact level.valid r old
    · rw [new r present old, Store.valid, head_alloc]
  · by_cases old : r.id < s.series.size
    · rw [level.column_eq grows old]
      exact level.column r old
    · rw [new r present old]
      exact (column_alloc s c _ _).symm ▸ added

theorem column_setColumn (present : r.id < s.series.size) (present' : q.id < s.series.size)
    (c : Column) : (s.setColumn r c).column q = if q = r then c else s.column q := by
  split
  next same =>
    subst same
    exact Store.column_setColumn (level.inside present) c
  next other =>
    refine column_setColumn_ne ?_ c
    rw [level.head_column present, level.head_column present']
    exact fun same => other (congrArg SeriesRef.mk same)

theorem setColumn (present : r.id < s.series.size) (changed : c.Level n) : (s.setColumn r c).Level n := by
  refine ⟨level.toStraight.setColumn r c, level.valid, fun q present' => ?_⟩
  rw [level.column_setColumn present present']
  split
  · exact changed
  · exact level.column q present'

theorem setValid (present : r.id < s.series.size) : s.setValid r ((n : Int) - 1) = s := by
  have here := series_head present
  have same : { s.head r with valid := (n : Int) - 1 } = s.head r := by
    rw [← level.valid r present]
    rfl
  rw [Store.setValid, same]
  refine congrArg (Store.mk s.columns) (Array.ext_getElem? fun i => ?_)
  rw [Array.getElem?_setIfInBounds]
  split
  next eq =>
    subst eq
    rw [here]
  next => rfl

end Level

namespace Stands

theorem grow (stands : s.Stands v x) (level : s.Level n) (grows : s.Grows s') : s'.Stands v x := by
  cases stands with
  | single single => exact .single single
  | series present column =>
    exact .series (grows.series.lt present) ((level.column_eq grows present).trans column)

theorem level (stands : s.Stands v x) (level : s.Level n) : x.Level n := by
  cases stands with
  | single single => exact single
  | series present column => exact column ▸ level.column _ present

theorem of_column (stands : s.Stands v (.column c)) : ∃ r, r.id < s.series.size ∧ v = .series r ∧ c = s.column r := by
  cases stands with
  | series present column => exact ⟨_, present, rfl, column.symm⟩

theorem outcome_operand (stands : s.Stands v x) : outcome (SeriesRef.operand v) s = (.ok x, s) := by
  cases stands with
  | single single => cases v <;> first | rfl | cases single
  | series present column =>
    cases column
    rfl

theorem outcome_validOf {w : Value} {y : Operand} (left : s.Stands v x) (right : s.Stands w y) (level : s.Level n)
    (some : x.isColumn || y.isColumn) : outcome (SeriesRef.validOf v w) s = (.ok ((n : Int) - 1), s) := by
  have one {r : SeriesRef} (present : r.id < s.series.size) :
      outcome (SeriesRef.valid r) s = (.ok ((n : Int) - 1), s) := by
    rw [SeriesRef.outcome_valid, level.valid r present]
  cases left with
  | series present _ =>
    cases right with
    | series present' _ =>
      refine (bind_ok (one present)).trans ((bind_ok (one present')).trans ?_)
      rw [Int.min_self]
      rfl
    | single single => cases w <;> first | exact one present | cases single
  | single single =>
    cases right with
    | series present _ => cases v <;> first | exact one present | cases single
    | single single' => cases some

end Stands

namespace Adds

theorem makes (adds : Adds n ((n : Int) - 1) s c r s') (level : s.Level n) : Makes n s c r s' := by
  obtain ⟨rfl, added, origin, rfl⟩ := adds
  exact ⟨alloc_grows .., level.alloc added origin, by simp [Store.alloc], column_alloc s ..⟩

variable (adds : Adds n valid s c r s')

include adds

theorem grows : s.Grows s' := by
  obtain ⟨_, _, origin, rfl⟩ := adds
  exact alloc_grows ..

theorem old (straight : s.Straight) (present : q.id < s.series.size) :
    s'.column q = s.column q ∧ s'.valid q = s.valid q := by
  refine ⟨adds.grows.column_eq present (straight.inside present), ?_⟩
  rw [Store.valid, adds.grows.head_eq present]
  rfl

theorem valid_old (level : s.Level n) (present : q.id < s.series.size) : s'.valid q = (n : Int) - 1 :=
  (adds.old level.toStraight present).2.trans (level.valid q present)

theorem valid_new : s'.valid r = valid := by
  obtain ⟨rfl, _, origin, rfl⟩ := adds
  rw [Store.valid, head_alloc]

theorem setValid (valid' : Int) : Adds n valid' s c r (s'.setValid r valid') := by
  obtain ⟨rfl, level, origin, rfl⟩ := adds
  exact ⟨rfl, level, origin, setValid_alloc ..⟩

end Adds

end Store

namespace SeriesRef

open Store

variable {n : Nat} {s s' : Store} {r q : SeriesRef} {c : Column} {a b v : Value} {valid : Int} {x y : Operand}

theorem make_adds (level : c.Level n) (valid : Int) (origin : Origin) :
    Answers (make c valid origin) s (.ok c) (Adds n valid s) :=
  ⟨_, _, rfl, rfl, level, origin, rfl⟩

theorem ofValues_adds {vs : List Value} (length : vs.length = n) (all : ∀ v ∈ vs, v.isSingle) :
    Answers (ofValues vs) s (Column.ofValues vs) (Adds n ((n : Int) - 1) s) := by
  subst length
  refine .step (outcome_entries (fun r mem => Value.ne_series (all _ mem) r rfl) s) ?_
  exact .readThen (outcome_lift _ s) fun c made => make_adds (level_ofValues all made) _ _

theorem replicate_adds (n : Nat) (single : v.isSingle) :
    Answers (replicate n v) s (Column.ofValues (List.replicate n v)) (Adds n ((n : Int) - 1) s) :=
  ofValues_adds length_replicate fun _ mem => eq_of_mem_replicate mem ▸ single

theorem mapColumn_adds (level : s.Level n) (present : r.id < s.series.size) {f : Column → Except Fault Column}
    (keeps : ∀ c, f (s.column r) = .ok c → c.Level n) :
    Answers (mapColumn f r) s (f (s.column r)) (Adds n ((n : Int) - 1) s) := by
  refine .step (outcome_column r s) ?_
  refine .readThen (outcome_lift _ s) fun c computed => .step (outcome_valid r s) (.step rfl ?_)
  rw [level.valid r present]
  exact make_adds (keeps c computed) _ _

theorem set_adds (adds : Adds n valid s c r s') (i : Nat) (single : v.isSingle) :
    Answers (set r i v) s' (c.set i v) fun c' _ s'' => Adds n valid s c' r s'' := by
  obtain ⟨rfl, level, origin, rfl⟩ := adds
  have here : (s.alloc c valid origin).2.column ⟨s.series.size⟩ = c := column_alloc s ..
  refine .step (outcome_column _ _) ?_
  rw [here]
  exact .readThen (outcome_lift _ _) fun c' stored => ⟨(), _, rfl, rfl, level.set single stored, origin, setColumn_alloc ..⟩

theorem finish_makes (level : s.Level n) (present : q.id < s.series.size) (adds : Adds n valid s c r s') :
    Answers (do setValid r (← q.valid); pure r) s' (.ok c) (Makes n s) := by
  refine .step (outcome_valid q s') ?_
  rw [adds.valid_old level present]
  exact .step (outcome_setValid ..) (.pure ((adds.setValid _).makes level))

theorem outcome_originOf (a b : Value) (s : Store) : ∃ origin, outcome (originOf a b) s = (.ok origin, s) := by
  cases a with
  | series a => exact ⟨_, rfl⟩
  | _ =>
    cases b with
    | series b => exact ⟨_, rfl⟩
    | _ => exact ⟨_, rfl⟩

theorem outcome_holdsAt (c : SeriesRef) (i : Int) (s : Store) :
    outcome (holdsAt c i) s = ((s.column c).truthAt i, s) := by
  rw [holdsAt, getFinite, truthAt, bind_assoc]
  cases got : (s.column c).get i with
  | error e =>
    rw [bind_error (by rw [outcome_get, got])]
    rfl
  | ok v =>
    rw [bind_ok (by rw [outcome_get, got])]
    cases v with
    | cell c => cases c <;> exact (bind_ok (outcome_pure _ s)).trans (outcome_lift _ s)
    | _ => exact (bind_ok (outcome_pure _ s)).trans (outcome_lift _ s)

section

variable (level : s.Level n)

include level

theorem combine_makes {f : Operand → Operand → Except Fault Column} (blends : Blends f) (left : s.Stands a x)
    (right : s.Stands b y) (some : x.isColumn || y.isColumn) : Answers (combine f a b) s (f x y) (Makes n s) := by
  obtain ⟨origin, from_⟩ := outcome_originOf a b s
  refine .step left.outcome_operand (.step right.outcome_operand ?_)
  refine .readThen (outcome_lift _ s) fun c computed => ?_
  refine .step (left.outcome_validOf right level some) (.step from_ ?_)
  exact (make_adds (blends (left.level level) (right.level level) some computed) _ origin).mono fun _ _ _ adds =>
    adds.makes level

theorem logic_makes (pos : 1 ≤ n) (isAnd : Bool) (present : r.id < s.series.size) (right : s.Stands b y) :
    Answers (logic isAnd r b) s (Column.logic isAnd (.column (s.column r).finite) y) (Makes n s) := by
  have column := level.column r present
  have finite : finiteIfFloat (s.column r) = .ok (s.column r).finite := by
    rw [finiteIfFloat, column.toFlat.length, if_neg (by simp; omega)]
  have series : s.Stands (.series r) (.column (s.column r)) := .series present rfl
  refine .step (outcome_column r s) (.step (by rw [outcome_lift, finite]) (.step right.outcome_operand ?_))
  refine .readThen (outcome_lift _ s) fun c computed => ?_
  have made := logic_blends isAnd (a := .column _) (finite_level column) (right.level level) rfl computed
  refine .step (series.outcome_validOf right level rfl) (.step rfl ?_)
  exact (make_adds made _ _).mono fun _ _ _ adds => adds.makes level

theorem finite_makes (present : r.id < s.series.size) :
    Answers (finite r) s (.ok (s.column r).finite) (Makes n s) := by
  refine .step (outcome_column r s) ?_
  split
  · refine (mapColumn_adds level present (f := fun c => .ok c.finite) fun c h => ?_).mono fun _ _ _ adds =>
      adds.makes level
    cases h
    exact finite_level (level.column r present)
  next other =>
    refine .pure ⟨Std.Refl.refl s, level, present, ?_⟩
    generalize s.column r = c at other
    obtain ⟨cells, rows⟩ := c
    cases cells with
    | floats xs => exact (other rfl).elim
    | _ => rfl

theorem shift_makes (present : r.id < s.series.size) (offset : Int) :
    Answers (shift r offset) s ((s.column r).shift offset) (Makes n s) := by
  have size : (s.column r).size = n := (level.column r present).size
  unfold shift Column.shift
  split
  · exact .pure ⟨Std.Refl.refl s, level, present, rfl⟩
  · refine .read (outcome_default r s) fun d default => .step (outcome_size r s) ?_
    have single : d.isSingle := default_single default
    simp only [pure_bind, size]
    split
    · exact .andThen (replicate_adds n single) fun _ _ _ adds => finish_makes level present adds
    · have rotated : Answers (mapColumn (fun c => .ok (c.rotate offset)) r) s (.ok ((s.column r).rotate offset))
          (Adds n ((n : Int) - 1) s) :=
        mapColumn_adds level present fun c h => Except.ok.inj h ▸
          rotate_level (level.column r present) offset
      obtain ⟨moved, s', ran, adds⟩ := rotated
      refine .step ran ?_
      rw [Answers.forM_eq_foldlM]
      refine .andThen (Answers.foldlM (R := fun c _ s' => Adds n ((n : Int) - 1) s c moved s') ?_ _ adds)
        fun _ _ _ adds => finish_makes level present adds
      exact fun i _ _ _ adds => set_adds adds i single

theorem blank_makes (present : r.id < s.series.size) :
    Answers (blank r) s ((s.column r).blank n) (Makes n s) := by
  have size : (s.column r).size = n := (level.column r present).size
  refine .step (outcome_size r s) (.read (outcome_default r s) fun d default => ?_)
  rw [size]
  exact .andThen (replicate_adds n (default_single default)) fun _ _ _ adds => finish_makes level present adds

end

end SeriesRef

namespace Indicator

open Store SeriesRef

variable {n last : Nat} {s : Store} {r : SeriesRef} {v : Value} {x : Operand}
  {test : Value × Value → Value × Value → Except Fault Value} {α : Type}

theorem upTo_last (n : Nat) : upTo ((n : Int) - 1) = range n := by
  rw [upTo, show ((n : Int) - 1 + 1).toNat = n by omega]

theorem slice_known {xs : List α} (length : xs.length = n) : slice xs 0 n = xs :=
  (slice_natCast xs 0 n).trans (by rw [← length, take_length, drop_zero])

theorem slice_rest {xs : List α} (length : xs.length = n) : slice xs n n = [] := by
  rw [slice_natCast, drop_eq_nil_of_le (by rw [length_take]; omega)]

theorem uncrossed_adds : Answers (mutable (.bool false) n) s (uncrossed n) (Adds n 0 s) := by
  refine .bind (replicate_adds n rfl) fun _ _ _ adds => .andThen (set_adds adds 0 rfl) fun _ _ _ adds => ?_
  exact .step (outcome_setValid ..) (.pure (adds.setValid 0))

theorem append_adds {s' : Store} {c : Column} {i : Nat} (adds : Adds n ((i : Int) - 1) s c r s') (single : v.isSingle) :
    Answers (append r v) s' (c.set i v) fun c' _ s'' => Adds n ((i + 1 : Nat) - 1) s c' r s'' := by
  have next : (i : Int) - 1 + 1 = i := by omega
  have after : ((i + 1 : Nat) : Int) - 1 = i := by omega
  refine .step (outcome_valid r s') ?_
  rw [adds.valid_new, after, next]
  exact .step (outcome_setValid ..) (.andThen (set_adds (adds.setValid i) i single) fun _ _ _ adds => .pure adds)

theorem outcome_remember (c source : SeriesRef) (d : Value) (occurrence : Int) (past : List Value × List Value)
    (i : Nat) (s : Store) : outcome (do
      let held ← if ← c.holdsAt i then do pure (past.1 ++ [← source.get i]) else pure past.1
      let v ← if occurrence < (held.length : Int) then Value.itemOf held (-occurrence - 1) else pure d
      pure (held, past.2 ++ [v]) : SeriesM (List Value × List Value)) s =
        (remember (s.column c) (s.column source) d occurrence past i, s) := by
  have found (held : List Value) : outcome (if occurrence < (held.length : Int) then do
        let v ← liftM (Value.itemOf held (-occurrence - 1))
        pure (held, past.2 ++ [v])
      else do
        let v ← pure d
        pure (held, past.2 ++ [v]) : SeriesM (List Value × List Value)) s =
      (if occurrence < (held.length : Int) then do
        let v ← Value.itemOf held (-occurrence - 1)
        pure (held, past.2 ++ [v])
      else do
        let v ← pure d
        pure (held, past.2 ++ [v]), s) := by
    split
    · exact outcome_bind_reading (outcome_lift _ s) fun _ => outcome_pure _ s
    · rfl
  refine outcome_bind_reading (outcome_holdsAt c i s) fun held => ?_
  cases held
  · exact found past.1
  · exact outcome_bind_reading (outcome_get source i s) fun v => found (past.1 ++ [v])

theorem outcome_peak (larger : Bool) (c : Column) (left right i : Int) (s : Store) : outcome (do
      let v ← c.get i
      let best ← extremeOf larger (slice c.toList (i - left) (i + right))
      let same ← Value.compare .eq v best
      pure (if same.isTrue then v else .float notANumber) : SeriesM Value) s = (peak larger c left right i, s) :=
  outcome_bind_reading (outcome_lift _ s) fun _ => outcome_bind_reading (outcome_lift _ s) fun _ =>
    outcome_bind_reading (outcome_lift _ s) fun _ => outcome_pure _ s

theorem crossing_adds (straight : s.Straight) (present : r.id < s.series.size) (present' : q.id < s.series.size)
    (single : ∀ {now before u}, test now before = .ok u → u.isSingle)
    (valid : (min (s.valid r) (s.valid q) + 1).toNat = last) :
    Answers (crossing n r (.series q) test) s (marked n last test (s.column r) (s.column q))
      (Adds n ((1 + (last - 1) : Nat) - 1) s) := by
  refine .step rfl (.bind uncrossed_adds fun start d s₁ adds => .step (outcome_valid r s₁) (.step (outcome_valid q s₁) ?_))
  dsimp only
  rw [(adds.old straight present).2, (adds.old straight present').2, upTo, valid, range_eq_range', tail_range',
    Answers.forM_eq_foldlM]
  refine .andThen (Answers.loop (R := fun i c _ s' => Adds n ((i : Int) - 1) s c d s') ?_ (last - 1) adds)
    fun _ _ _ adds => .pure adds
  intro i c _ s' adds
  have got (i : Int) := outcome_get r i s'
  have got' (i : Int) := outcome_get q i s'
  simp only [(adds.old straight present).1, (adds.old straight present').1] at got got'
  simp only [testAt, bind_assoc]
  refine .read (got _) fun _ _ => .read (got' _) fun _ _ => .read (got _) fun _ _ => .read (got' _) fun _ _ => ?_
  exact .read (outcome_lift _ s') fun u tested =>
    .andThen (append_adds adds (single tested)) fun _ _ _ adds => .pure adds

theorem barssince_adds {c : SeriesRef} (straight : s.Straight) (present : c.id < s.series.size)
    (valid : s.valid c = (last : Int) - 1) : Answers (barssince n (.series c)) s (do
      let zeros ← Column.ofValues (List.replicate n (.int 0))
      let (_, counts) ← (range last).foldlM (count (s.column c)) (0, zeros)
      pure counts) (Adds n ((last : Int) - 1) s) := by
  refine .bind (replicate_adds n rfl) fun zeros dest s₁ adds => .step (outcome_valid _ s₁) ?_
  rw [(adds.old straight present).2, valid, upTo_last]
  refine .bind (Answers.foldlM (R := fun past bars s' => past.1 = bars ∧ Adds n ((n : Int) - 1) s past.2 dest s') ?_ _
    ⟨rfl, adds⟩) fun _ _ s' past => .step (outcome_valid _ s') ?_
  · rintro i ⟨_, counts⟩ bars s' ⟨rfl, adds⟩
    have reads := outcome_holdsAt c i s'
    rw [(adds.old straight present).1] at reads
    exact .read reads fun held _ => .bind (set_adds adds i rfl) fun _ _ _ adds => .pure ⟨rfl, adds⟩
  · rw [(past.2.old straight present).2, valid]
    exact .step (outcome_setValid ..) (.pure (past.2.setValid _))

variable (level : s.Level n)

include level

theorem barssince_makes (stands : s.Stands v x) : Answers (barssince n v) s (sinceHeld n x) (Makes n s) := by
  cases stands with
  | @series c d present column =>
    cases column
    exact (barssince_adds level.toStraight present (level.valid c present)).mono fun _ _ _ adds => adds.makes level
  | single single =>
    unfold barssince
    split
    next => cases single
    next =>
      rw [sinceHeld]
      split
      · refine (ofValues_adds (by simp) fun v mem => ?_).mono fun _ _ _ adds => adds.makes level
        obtain ⟨i, _, rfl⟩ := mem_map.mp mem
        rfl
      · exact (replicate_adds n rfl).mono fun _ _ _ adds => adds.makes level

theorem asSeries_makes (stands : s.Stands v x) : Answers (asSeries n v) s (x.asColumn n) (Makes n s) := by
  cases stands with
  | series present column => exact .pure ⟨Std.Refl.refl s, level, present, column⟩
  | single single =>
    unfold asSeries
    split
    next => cases single
    next => exact (replicate_adds n single).mono fun _ _ _ adds => adds.makes level

theorem crossing_makes (pos : 1 ≤ n) (present : r.id < s.series.size) (stands : s.Stands v x)

    (single : ∀ {now before u}, test now before = .ok u → u.isSingle) :
    Answers (crossing n r v test) s (crossings n test (s.column r) x) (Makes n s) := by
  refine .bind (asSeries_makes level stands) fun y q s₁ makes => ?_
  have present₁ := makes.grows.series.lt present
  have valid : (min (s₁.valid r) (s₁.valid q) + 1).toNat = n := by
    rw [makes.level.valid r present₁, makes.level.valid q makes.present]
    omega
  have answers := crossing_adds (n := n) makes.level.toStraight present₁ makes.present @single valid
  rw [level.column_eq makes.grows present, makes.column, Nat.add_sub_cancel' pos] at answers
  refine answers.mono fun _ _ _ adds => ?_
  have made := adds.makes makes.level
  exact ⟨Trans.trans makes.grows made.grows, made.level, made.present, made.column⟩

theorem valuewhen_makes (stands : s.Stands v x) (present : r.id < s.series.size) (occurrence : Int) :
    Answers (valuewhen n v r occurrence) s (heldValues n x (s.column r) occurrence) (Makes n s) := by
  cases stands with
  | single single =>
    unfold valuewhen
    split
    next => cases single
    next =>
      rw [heldValues]
      split
      · exact .throw _ _
      · exact blank_makes level present
  | @series c d presentC column =>
    have missing : ((n : Int) - ((n : Int) - 1 + 1)).toNat = 0 := by omega
    refine .step (outcome_valid c s) (.step (outcome_valid r s) ?_)
    rw [level.valid c presentC, level.valid r present]
    dsimp only
    rw [Int.min_self, upTo_last]
    refine .read (outcome_default r s) fun u default => ?_
    refine .read ((outcome_foldlM_reading (outcome_remember c r u occurrence · · s) _ _).trans (by rw [column]))
      fun last found => ?_
    obtain ⟨length, singles⟩ := remembered (level.column r present) (default_single default) found
    rw [missing, replicate_zero, append_nil]
    refine .andThen (ofValues_adds length singles) fun _ _ _ adds => .step (outcome_setValid ..) (.pure ?_)
    exact (adds.setValid _).makes level

theorem nz_makes {z : Value} (single : z.isSingle) (present : r.id < s.series.size) :
    Answers (nz (.series r) z) s (substituted z (s.column r)) fun c v s' => ∃ d, v = .series d ∧ Makes n s c d s' := by
  have column := level.column r present
  have each (v : Value) : outcome (do pure (if ← v.isNaN then z else v) : SeriesM Value) s = (orElse z v, s) :=
    outcome_bind_reading (outcome_lift _ s) fun _ => outcome_pure _ s
  have length : (s.column r).cells.toList.length = n := (Cells.length_toList _).trans column.size
  refine .step (outcome_column r s) (.step (outcome_valid r s) ?_)
  rw [substituted, level.valid r present, column.toFlat.toList, length, show (n : Int) - 1 + 1 = n by omega,
    slice_known length, slice_rest length]
  refine .read (outcome_mapM_reading each _) fun known computed => ?_
  obtain ⟨length, singles⟩ := substitutes single column computed
  rw [append_nil]
  refine .andThen (ofValues_adds length singles) fun _ _ _ adds => .step (outcome_setValid ..) (.pure ?_)
  exact ⟨_, rfl, (adds.setValid _).makes level⟩

theorem pivot_makes (present : r.id < s.series.size) (larger : Bool) (left right : Nat) :
    Answers (pivot larger r left right) s (pivots larger (s.column r) left right) (Makes n s) := by
  have column := level.column r present
  refine .step (outcome_column r s) ?_
  rw [pivots, column.toFlat.length]
  dsimp only
  split
  · exact (replicate_adds n rfl).mono fun _ _ _ adds => adds.makes level
  next wide =>
    refine .read (outcome_mapM_reading (outcome_peak larger _ left right · s) _) fun found computed => ?_
    obtain ⟨length, singles⟩ := peaks_single column wide computed
    exact (ofValues_adds length singles).mono fun _ _ _ adds => adds.makes level

end Indicator

end PineEngine
