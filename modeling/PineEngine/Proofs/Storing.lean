import PineEngine.Proofs.Columns
import PineEngine.Proofs.Growth

/-! # What operations on series store

Equations for the series that an operation reads, adds and writes. An operation that adds a series and then
writes to it adds the series with its last column and its last valid index (`Store.setColumn_alloc`,
`Store.setValid_alloc`).
-/

namespace PineEngine

open Computation

variable {α : Type} {v : Value}

namespace Store

def filled (s : Store) (r : SeriesRef) : Bool :=
  s.valid r == ((s.column r).size : Int) - 1

variable {s s' : Store} {r r' : SeriesRef}

theorem setIfInBounds_push_size (xs : Array α) (a b : α) : (xs.push a).setIfInBounds xs.size b = xs.push b := by
  apply Array.ext'
  simp

theorem head_alloc (s : Store) (c : Column) (valid : Int) (origin : Origin) :
    (s.alloc c valid origin).2.head ⟨s.series.size⟩ = ⟨s.columns.size, valid, origin⟩ := by
  simp [alloc, head]

theorem setColumn_alloc (s : Store) (c c' : Column) (valid : Int) (origin : Origin) :
    (s.alloc c valid origin).2.setColumn ⟨s.series.size⟩ c' = (s.alloc c' valid origin).2 := by
  rw [setColumn, head_alloc]
  simp [alloc, setIfInBounds_push_size]

theorem setValid_alloc (s : Store) (c : Column) (valid valid' : Int) (origin : Origin) :
    (s.alloc c valid origin).2.setValid ⟨s.series.size⟩ valid' = (s.alloc c valid' origin).2 := by
  rw [setValid, head_alloc]
  simp [alloc, setIfInBounds_push_size]

theorem alloc_grows (s : Store) (c : Column) (valid : Int) (origin : Origin) : s.Grows (s.alloc c valid origin).2 :=
  (alloc_added (Std.Refl.refl s) c valid origin).grows

theorem Grows.head_eq (grows : s.Grows s') (present : r.id < s.series.size) : s'.head r = s.head r := by
  obtain ⟨_, there, rfl⟩ := grows.series r.id _ (series_head present)
  exact head_of_series there

theorem Grows.column_eq (grows : s.Grows s') (present : r.id < s.series.size)
    (inside : (s.head r).column < s.columns.size) : s'.column r = s.column r := by
  obtain ⟨_, there, rfl⟩ := grows.columns _ _ (columns_column inside)
  rw [column, grows.head_eq present, there, Option.getD_some]

theorem column_setColumn (inside : (s.head r).column < s.columns.size) (c : Column) :
    (s.setColumn r c).column r = c := by
  show ((s.columns.setIfInBounds (s.head r).column c)[(s.head r).column]?).getD _ = _
  rw [Array.getElem?_setIfInBounds, if_pos rfl, if_pos inside]
  rfl

theorem column_setColumn_ne (apart : (s.head r').column ≠ (s.head r).column) (c : Column) :
    (s.setColumn r c).column r' = s.column r' := by
  show ((s.columns.setIfInBounds (s.head r).column c)[(s.head r').column]?).getD _ = _
  rw [Array.getElem?_setIfInBounds_ne apart.symm]
  rfl

theorem head_setValid_ne (s : Store) (other : r' ≠ r) (valid : Int) : (s.setValid r valid).head r' = s.head r' := by
  have apart : r.id ≠ r'.id := by
    intro same
    cases r
    cases r'
    cases same
    exact other rfl
  simp [setValid, head, Array.getElem?_setIfInBounds_ne apart]

theorem head_column_setValid (s : Store) (r r' : SeriesRef) (valid : Int) :
    ((s.setValid r valid).head r').column = (s.head r').column := by
  by_cases same : r' = r
  · subst same
    simp only [setValid, head, Array.getElem?_setIfInBounds, if_true]
    split
    · rfl
    · rw [Array.getElem?_eq_none (by omega)]
  · rw [head_setValid_ne s same]

theorem column_setValid (s : Store) (r r' : SeriesRef) (valid : Int) :
    (s.setValid r valid).column r' = s.column r' := by
  rw [column, column, head_column_setValid]
  rfl

theorem setColumn_setColumn (s : Store) (r : SeriesRef) (c c' : Column) :
    (s.setColumn r c).setColumn r c' = s.setColumn r c' := by
  simp [setColumn, head]

theorem setColumn_self (inside : (s.head r).column < s.columns.size) : s.setColumn r (s.column r) = s := by
  have same : s.columns.setIfInBounds (s.head r).column (s.column r) = s.columns := by
    apply Array.ext_getElem?
    intro i
    rw [Array.getElem?_setIfInBounds, if_pos inside]
    split
    next here =>
      subst here
      exact (columns_column inside).symm
    next => rfl
  rw [setColumn, same]

end Store

theorem Kind.join_self (k : Kind) : k.join k = k := by
  cases k <;> simp [join, textWidth]

namespace Column

theorem items_replicate (single : items? v = none) (n : Nat) : ((List.replicate (n + 1) v).mapM items?) = none := by
  simp [List.replicate_succ, List.mapM_cons, single]

theorem kinds_replicate (k : Kind) (n : Nat) (v : Value) (same : Kind.ofValue v = k) :
    (List.replicate n v).foldl (fun k v => k.join (Kind.ofValue v)) k = k := by
  induction n with
  | zero => rfl
  | succ n ih => rw [List.replicate_succ, List.foldl_cons, same, Kind.join_self, ih]

theorem ofValues_replicate (single : items? v = none) (n : Nat) :
    ofValues (List.replicate (n + 1) v) =
      (Cells.ofValuesAs (Kind.ofValue v) (List.replicate (n + 1) v)).map fun cs => ⟨cs, none⟩ := by
  have none : (List.replicate (n + 1) v).any (fun v => (items? v).isSome) = false := by
    simp [single]
  rw [ofValues, items_replicate single, none]
  simp only [Bool.false_eq_true, if_false, ofSingles, List.replicate_succ]
  rw [kinds_replicate _ n v rfl]

theorem mapM_replicate {f : Value → Except Fault α} {a : α} (h : f v = .ok a) (n : Nat) :
    (List.replicate n v).mapM f = .ok (List.replicate n a) := by
  induction n with
  | zero => rfl
  | succ n ih => rw [List.replicate_succ, List.mapM_cons, h, ih]; rfl

theorem ofValues_zeros (n : Nat) : ofValues (List.replicate (n + 1) (.int 0)) =
    .ok ⟨.ints .long (List.replicate (n + 1) 0).toArray, none⟩ := by
  rw [ofValues_replicate rfl]
  show Except.map _ (Except.map _ (List.mapM _ _)) = _
  rw [mapM_replicate (show Cells.intCell .long (.int 0) = .ok 0 from rfl)]
  rfl

theorem ofValues_notNumbers (n : Nat) : ofValues (List.replicate (n + 1) (.float notANumber)) =
    .ok ⟨.floats (List.replicate (n + 1) notANumber).toArray, none⟩ := by
  rw [ofValues_replicate rfl]
  show Except.map _ (Except.map _ (List.mapM _ _)) = _
  rw [mapM_replicate (show Cells.floatCell (.float notANumber) = .ok notANumber from rfl)]
  rfl

end Column

namespace SeriesRef

variable {s s' : Store} {r : SeriesRef} {vs : List Value}

theorem outcome_column (r : SeriesRef) (s : Store) : outcome (column r) s = (.ok (s.column r), s) := rfl

theorem outcome_valid (r : SeriesRef) (s : Store) : outcome (valid r) s = (.ok (s.valid r), s) := rfl

theorem outcome_size (r : SeriesRef) (s : Store) : outcome (size r) s = (.ok (s.column r).size, s) := rfl

theorem outcome_length (r : SeriesRef) (s : Store) : outcome (length r) s = (.ok (s.column r).length, s) := rfl

theorem outcome_lift (e : Except Fault α) (s : Store) : outcome (liftM e : SeriesM α) s = (e, s) := by
  cases e <;> rfl

theorem outcome_get (r : SeriesRef) (i : Int) (s : Store) : outcome (get r i) s = ((s.column r).get i, s) := by
  rw [get, bind_ok (outcome_column r s), outcome_lift]

theorem outcome_default (r : SeriesRef) (s : Store) :
    outcome (default r) s = (defaultOf (s.column r).cells.kind, s) := by
  rw [default, bind_ok (outcome_column r s), outcome_lift]

theorem outcome_filled (r : SeriesRef) (s : Store) : outcome (filled r) s = (.ok (s.filled r), s) := rfl

theorem outcome_setValid (r : SeriesRef) (valid : Int) (s : Store) :
    outcome (setValid r valid) s = (.ok (), s.setValid r valid) := rfl

variable {c : Column}

theorem outcome_set {i : Int} (stored : (s.column r).set i v = .ok c) :
    outcome (set r i v) s = (.ok (), s.setColumn r c) := by
  rw [set, bind_ok (outcome_column r s), stored]
  rfl

theorem set_eq_ok {i : Int} (h : outcome (set r i v) s = (.ok (), s')) :
    ∃ c, (s.column r).set i v = .ok c ∧ s' = s.setColumn r c := by
  obtain ⟨c, stored, h⟩ := lift_reads.bind_eq_ok h
  cases h
  exact ⟨c, (SeriesM.lift_eq_ok stored).1, rfl⟩

theorem outcome_entries (plain : ∀ r, .series r ∉ vs) (s : Store) :
    outcome (entries vs) s = (.ok vs, s) := by
  induction vs with
  | nil => rfl
  | cons v vs ih =>
    have rest := ih fun r mem => plain r (.tail _ mem)
    rw [entries] at rest ⊢
    rw [List.mapM_cons]
    cases v with
    | series r => exact (plain r (.head _)).elim
    | _ => rw [bind_ok (outcome_pure _ s), bind_ok rest]; rfl

theorem outcome_ofValues (plain : ∀ r, .series r ∉ vs) (made : Column.ofValues vs = .ok c)
    (s : Store) : outcome (ofValues vs) s = (.ok ⟨s.series.size⟩, (s.alloc c ((vs.length : Int) - 1) .plain).2) := by
  rw [ofValues, bind_ok (outcome_entries plain s), made]
  rfl

theorem outcome_replicate {n : Nat} (plain : ∀ r, v ≠ .series r) (made : Column.ofValues (List.replicate n v) = .ok c)
    (s : Store) : outcome (replicate n v) s = (.ok ⟨s.series.size⟩, (s.alloc c ((n : Int) - 1) .plain).2) := by
  rw [replicate, outcome_ofValues (fun r mem => plain r (List.eq_of_mem_replicate mem).symm) made,
    List.length_replicate]

theorem outcome_mapColumn {f : Column → Except Fault Column} (made : f (s.column r) = .ok c) :
    outcome (mapColumn f r) s =
      (.ok ⟨s.series.size⟩, (s.alloc c (s.valid r) (s.head r).origin.derived).2) := by
  rw [mapColumn, bind_ok (outcome_column r s), made]
  rfl

theorem outcome_copy (r : SeriesRef) (s : Store) : outcome (copy r) s =
    (.ok ⟨s.series.size⟩, (s.alloc (s.column r) (s.valid r) (s.head r).origin.derived).2) :=
  outcome_mapColumn rfl

theorem outcome_setStart {c' : Column} (stored : c.set 0 v = .ok c') (s : Store) (valid : Int) :
    outcome (do
      set ⟨s.series.size⟩ 0 v
      setValid ⟨s.series.size⟩ 0
      pure ⟨s.series.size⟩ : SeriesM SeriesRef) (s.alloc c valid .plain).2 =
        (.ok ⟨s.series.size⟩, (s.alloc c' 0 .plain).2) := by
  have stored : (((s.alloc c valid .plain).2.column ⟨s.series.size⟩).set 0 v) = .ok c' := by
    rw [← stored]
    exact congrArg (Column.set · 0 v) (Store.column_alloc s c _ _)
  rw [bind_ok (outcome_set stored), bind_ok (outcome_setValid _ _ _), Store.setColumn_alloc,
    Store.setValid_alloc]
  rfl

end SeriesRef

/-- The column that stands for a condition: the numbers of a column of doubles are made finite. -/
def Column.asCondition (c : Column) : Column :=
  if c.cells.kind == .float then c.finite else c

def Column.holdsAt (c : Column) (i : Int) : Except Fault Bool := do
  SeriesRef.entryTruth (← c.get i)

/-- A column with an entry of another one if a condition does not hold there. -/
def Column.replaceAt (cond other : Column) (c : Column) (i : Nat) : Except Fault Column := do
  if ← cond.holdsAt i then pure c else c.set i (← other.get i)

/-- A column with the entries of another one where a condition does not hold. -/
def Column.replaceUnless (cond other : Column) (places : List Nat) (c : Column) : Except Fault Column :=
  places.foldlM (replaceAt cond other) c

namespace SeriesRef

variable {s : Store} {r cond other : SeriesRef}

/-- A computation that replaces the column of a series by a function of it, if that has a value. -/
def Replaces (r : SeriesRef) (s : Store) (c : Except Fault Column) (x : SeriesM PUnit) : Prop :=
  match c with
  | .ok c => outcome x s = (.ok (), s.setColumn r c)
  | .error e => (outcome x s).1 = .error e

theorem Replaces.bind {x : SeriesM α} {e : Except Fault α} (reads : outcome x s = (e, s))
    {f : α → Except Fault Column} {g : α → SeriesM PUnit} (rest : ∀ a, Replaces r s (f a) (g a)) :
    Replaces r s (e >>= f) (x >>= g) := by
  cases e with
  | error e => exact congrArg Prod.fst (bind_error reads)
  | ok a =>
    have after := rest a
    unfold Replaces at after ⊢
    rw [bind_ok reads]
    exact after

theorem set_replaces (i : Int) (v : Value) : Replaces r s ((s.column r).set i v) (r.set i v) := by
  cases stored : (s.column r).set i v with
  | error e =>
    show (outcome (r.set i v) s).1 = .error e
    rw [set, bind_ok (outcome_column r s), stored]
    rfl
  | ok c => exact outcome_set stored

theorem replaceAt_replaces (inside : (s.head r).column < s.columns.size) (i : Nat) :
    Replaces r s (Column.replaceAt (s.column cond) (s.column other) (s.column r) i)
      (do if !(← entryTruth (← cond.get i)) then r.set i (← other.get i)) := by
  unfold Column.replaceAt Column.holdsAt
  rw [bind_assoc]
  refine .bind (outcome_get cond i s) fun v => .bind (outcome_lift _ s) fun t => ?_
  cases t with
  | true =>
    show outcome (pure ()) s = _
    rw [Store.setColumn_self inside]
    rfl
  | false => exact .bind (outcome_get other i s) fun w => set_replaces i w

theorem forM_replaces {P : Store → Prop} {f : Column → Nat → Except Fault Column} {x : Nat → SeriesM PUnit}
    (keeps : ∀ s c, P s → P (s.setColumn r c)) (inside : ∀ s, P s → (s.head r).column < s.columns.size)
    (each : ∀ s i, P s → Replaces r s (f (s.column r) i) (x i)) (places : List Nat) (holds : P s) :
    Replaces r s (places.foldlM f (s.column r)) (places.forM x) := by
  induction places generalizing s with
  | nil =>
    show outcome (pure ()) s = _
    rw [Store.setColumn_self (inside s holds)]
    rfl
  | cons i places ih =>
    have here := each s i holds
    rw [List.foldlM_cons]
    show Replaces r s _ (_ >>= fun _ => places.forM _)
    cases replaced : f (s.column r) i with
    | error e =>
      rw [replaced] at here
      show (outcome _ s).1 = .error e
      rw [bind_error (Prod.ext here rfl)]
    | ok c =>
      rw [replaced] at here
      have rest := ih (keeps s c holds)
      rw [Store.column_setColumn (inside s holds)] at rest
      show Replaces r s (places.foldlM f c) _
      unfold Replaces at rest ⊢
      rw [bind_ok here]
      split <;> simp only [*, Store.setColumn_setColumn] at rest ⊢
      · exact rest
      · exact rest

theorem replaceUnless_replaces (places : List Nat) (inside : (s.head r).column < s.columns.size)
    (fromCond : (s.head cond).column ≠ (s.head r).column) (fromOther : (s.head other).column ≠ (s.head r).column) :
    Replaces r s (Column.replaceUnless (s.column cond) (s.column other) places (s.column r))
      (places.forM fun i => do if !(← entryTruth (← cond.get i)) then r.set i (← other.get i)) := by
  refine forM_replaces (P := fun s' => (∀ r', s'.head r' = s.head r') ∧ s'.columns.size = s.columns.size ∧
    s'.column cond = s.column cond ∧ s'.column other = s.column other) ?_ ?_ ?_ places ⟨fun _ => rfl, rfl, rfl, rfl⟩
  · rintro s' c ⟨heads, size, sameCond, sameOther⟩
    refine ⟨heads, by simpa [Store.setColumn] using size, ?_, ?_⟩
    · rw [Store.column_setColumn_ne (by rw [heads, heads]; exact fromCond), sameCond]
    · rw [Store.column_setColumn_ne (by rw [heads, heads]; exact fromOther), sameOther]
  · rintro s' ⟨heads, size, _⟩
    rw [heads, size]
    exact inside
  · rintro s' i ⟨heads, size, sameCond, sameOther⟩
    rw [← sameCond, ← sameOther]
    exact replaceAt_replaces (by rw [heads, size]; exact inside) i

end SeriesRef

end PineEngine
