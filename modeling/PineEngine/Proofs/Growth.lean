import PineEngine.Builtin.Indicator
import PineEngine.Proofs.Computation

/-! # Growth of the store

The operations on series that expressions are made of never touch a series that is there already: they
read, they add series with columns of their own, and they write to what they added. So the store after such
an operation holds all that it held before (`Store.Grows`), also when the operation fails halfway.

`Store.Added` is what an operation knows of a series it added; as long as it writes to such series only,
the store has grown.
-/

namespace PineEngine

variable {x : SeriesM SeriesRef}

section Carried

variable {α : Type} {R : α → α → Prop} {xs ys zs : Array α}

/-- Every entry of an array has one at the same place of another array that it is related to. -/
def Carried (R : α → α → Prop) (xs ys : Array α) : Prop :=
  ∀ (i : Nat) (x : α), xs[i]? = some x → ∃ y, ys[i]? = some y ∧ R x y

namespace Carried

theorem refl [Std.Refl R] (xs : Array α) : Carried R xs xs :=
  fun _ x here => ⟨x, here, Std.Refl.refl x⟩

theorem of_eq (same : Carried Eq xs ys) (refl : ∀ x, R x x) : Carried R xs ys := by
  intro i x here
  obtain ⟨_, there, rfl⟩ := same i x here
  exact ⟨x, there, refl x⟩

theorem comp (first : Carried R xs ys) (second : Carried R ys zs) (both : ∀ {x y z}, R x y → R y z → R x z) :
    Carried R xs zs := by
  intro i x here
  obtain ⟨y, there, xy⟩ := first i x here
  obtain ⟨z, last, yz⟩ := second i y there
  exact ⟨z, last, both xy yz⟩

theorem trans [Trans R R R] (first : Carried R xs ys) (second : Carried R ys zs) : Carried R xs zs :=
  first.comp second Trans.trans

variable (carried : Carried R xs ys)

include carried

theorem size_le : xs.size ≤ ys.size := by
  rcases Nat.eq_zero_or_pos xs.size with none | some
  · omega
  · obtain ⟨y, there, _⟩ := carried (xs.size - 1) _ (Array.getElem?_eq_getElem (by omega))
    have := (Array.getElem?_eq_some_iff.mp there).1
    omega

theorem lt {i : Nat} (low : i < xs.size) : i < ys.size :=
  Nat.lt_of_lt_of_le low carried.size_le

theorem push (y : α) : Carried R xs (ys.push y) := by
  intro i x here
  obtain ⟨z, there, related⟩ := carried i x here
  have inside := (Array.getElem?_eq_some_iff.mp there).1
  refine ⟨z, ?_, related⟩
  rw [Array.getElem?_push_lt inside, ← Array.getElem?_eq_getElem inside, there]

theorem set {k : Nat} {y : α} (placed : ∀ x, xs[k]? = some x → R x y) : Carried R xs (ys.setIfInBounds k y) := by
  intro i x here
  obtain ⟨z, there, related⟩ := carried i x here
  have inside := (Array.getElem?_eq_some_iff.mp there).1
  rw [Array.getElem?_setIfInBounds]
  by_cases same : k = i
  · subst same
    rw [if_pos rfl, if_pos inside]
    exact ⟨y, rfl, placed x here⟩
  · rw [if_neg same]
    exact ⟨z, there, related⟩

theorem set_new {k : Nat} {y : α} (new : xs.size ≤ k) : Carried R xs (ys.setIfInBounds k y) :=
  carried.set fun x here => by
    have := (Array.getElem?_eq_some_iff.mp here).1
    omega

end Carried

end Carried

instance instReflEq {α : Type} : Std.Refl (@Eq α) :=
  ⟨fun _ => rfl⟩

namespace Store

structure Straight (s : Store) : Prop where
  size : s.columns.size = s.series.size
  own : ∀ (i : Nat) (h : SeriesHead), s.series[i]? = some h → h.column = i

/-- The series and columns of a store are in another one as they were, and no two series come to share a column. -/
structure Grows (s s' : Store) : Prop where
  series : Carried Eq s.series s'.series
  columns : Carried Eq s.columns s'.columns
  straight : s.Straight → s'.Straight

instance : Std.Refl Grows :=
  ⟨fun _ => ⟨.refl _, .refl _, id⟩⟩

instance : Trans Grows Grows Grows :=
  ⟨fun first second => ⟨first.series.trans second.series, first.columns.trans second.columns,
    second.straight ∘ first.straight⟩⟩

/-- A series of a store that an earlier store has not, no more than its column. -/
structure Beyond (s₀ s : Store) (r : SeriesRef) : Prop where
  present : r.id < s.series.size
  series : s₀.series.size ≤ r.id
  column : s₀.columns.size ≤ (s.head r).column
  inside : (s.head r).column < s.columns.size

structure Added (s₀ s : Store) (r : SeriesRef) : Prop extends Beyond s₀ s r where
  grows : s₀.Grows s

variable {s₀ s : Store} {r : SeriesRef}

theorem Straight.alloc (straight : s.Straight) (c : Column) (valid : Int) (origin : Origin) :
    (s.alloc c valid origin).2.Straight where
  size := by simp [Store.alloc, straight.size]
  own i h here := by
    rw [Store.alloc, Array.getElem?_push] at here
    split at here
    next last =>
      cases here
      exact straight.size.trans last.symm
    next => exact straight.own i h here

theorem Straight.setColumn (straight : s.Straight) (r : SeriesRef) (c : Column) : (s.setColumn r c).Straight :=
  ⟨by simpa [Store.setColumn] using straight.size, straight.own⟩

theorem Straight.setValid (straight : s.Straight) (r : SeriesRef) (valid : Int) : (s.setValid r valid).Straight where
  size := by simpa [Store.setValid] using straight.size
  own i h here := by
    rw [Store.setValid, Array.getElem?_setIfInBounds] at here
    split at here
    next same =>
      split at here
      next inside =>
        cases here
        have own := straight.own r.id _ (Array.getElem?_eq_getElem inside)
        rwa [head, Array.getElem?_eq_getElem inside, ← same]
      next => cases here
    next => exact straight.own i h here

theorem alloc_added (grows : s₀.Grows s) (c : Column) (valid : Int) (origin : Origin) :
    s₀.Added (s.alloc c valid origin).2 (s.alloc c valid origin).1 where
  grows := ⟨grows.series.push _, grows.columns.push _, fun straight => (grows.straight straight).alloc c valid origin⟩
  present := by simp [alloc]
  series := grows.series.size_le
  column := by simpa [alloc, head] using grows.columns.size_le
  inside := by simp [alloc, head]

theorem head_of_series {h : SeriesHead} (here : s.series[r.id]? = some h) : s.head r = h := by
  rw [head, here]
  rfl

theorem series_head (present : r.id < s.series.size) : s.series[r.id]? = some (s.head r) := by
  rw [head, Array.getElem?_eq_getElem present, Option.getD_some]

theorem Straight.head_column (straight : s.Straight) (present : r.id < s.series.size) : (s.head r).column = r.id :=
  straight.own r.id _ (series_head present)

theorem Straight.inside (straight : s.Straight) (present : r.id < s.series.size) :
    (s.head r).column < s.columns.size := by
  rw [straight.head_column present, straight.size]
  exact present

theorem column_of_columns {c : Column} (here : s.columns[(s.head r).column]? = some c) : s.column r = c := by
  rw [column, here]
  rfl

theorem columns_column (inside : (s.head r).column < s.columns.size) :
    s.columns[(s.head r).column]? = some (s.column r) := by
  rw [column, Array.getElem?_eq_getElem inside, Option.getD_some]

theorem column_alloc (s : Store) (c : Column) (valid : Int) (origin : Origin) :
    (s.alloc c valid origin).2.column (s.alloc c valid origin).1 = c := by
  simp [alloc, column, head]

theorem Beyond.setColumn (beyond : s₀.Beyond s r) (c : Column) : s₀.Beyond (s.setColumn r c) r :=
  ⟨beyond.present, beyond.series, beyond.column, by simpa [Store.setColumn, head] using beyond.inside⟩

theorem Beyond.setValid (beyond : s₀.Beyond s r) (valid : Int) : s₀.Beyond (s.setValid r valid) r := by
  have same : ((s.setValid r valid).head r).column = (s.head r).column := by
    simp [Store.setValid, head, beyond.present]
  refine ⟨?_, beyond.series, ?_, ?_⟩
  · simpa [Store.setValid] using beyond.present
  · rw [same]
    exact beyond.column
  · rw [same]
    exact beyond.inside

theorem Added.setColumn (added : s₀.Added s r) (c : Column) : s₀.Added (s.setColumn r c) r :=
  ⟨added.toBeyond.setColumn c, added.grows.series, added.grows.columns.set_new added.column,
    fun straight => (added.grows.straight straight).setColumn r c⟩

theorem Added.setValid (added : s₀.Added s r) (valid : Int) : s₀.Added (s.setValid r valid) r :=
  ⟨added.toBeyond.setValid valid, added.grows.series.set_new added.series, added.grows.columns,
    fun straight => (added.grows.straight straight).setValid r valid⟩

end Store

open Computation Store

variable {α : Type} {vs : List Value}

theorem SeriesM.lift_eq_ok {e : Except Fault α} {a : α} {s s' : Store}
    (h : outcome (liftM e : SeriesM α) s = (.ok a, s')) : e = .ok a ∧ s' = s := by
  cases e <;> cases h
  exact ⟨rfl, rfl⟩

def Builds (x : SeriesM SeriesRef) : Prop :=
  ∀ s₀ : Store, Leads s₀.Grows s₀.Grows x fun r s => s₀.Added s r

theorem Builds.grows (builds : Builds x) : Obeys Grows x :=
  Leads.obeys builds fun _ _ _ added => added.grows

theorem Builds.bind {x : SeriesM α} {f : α → SeriesM SeriesRef} (reads : Obeys Eq x) (rest : ∀ a, Builds (f a)) :
    Builds (x >>= f) :=
  fun s₀ => (Leads.of_reads reads fun _ grows => grows).bind fun a => rest a s₀

theorem Builds.bind_grows {x : SeriesM α} {f : α → SeriesM SeriesRef} (grows : Obeys Grows x)
    (rest : ∀ a, Builds (f a)) : Builds (x >>= f) :=
  fun s₀ => (Leads.of_obeys grows).bind fun a => rest a s₀

theorem Builds.throw (e : Fault) : Builds (throw e) :=
  fun _ _ grows => grows

/-- A computation of a value that is no series, one of some given ones, or one that the computation adds. -/
def Brings (vs : List Value) (x : SeriesM Value) : Prop :=
  ∀ s₀ : Store, Leads s₀.Grows s₀.Grows x fun v s =>
    s₀.Grows s ∧ ∀ r, v = .series r → s₀.Added s r ∨ v ∈ vs

theorem Brings.grows {x : SeriesM Value} (brings : Brings vs x) : Obeys Grows x :=
  Leads.obeys brings fun _ _ _ after => after.1

theorem Brings.bind {x : SeriesM α} {f : α → SeriesM Value} (reads : Obeys Eq x) (rest : ∀ a, Brings vs (f a)) :
    Brings vs (x >>= f) :=
  fun s₀ => (Leads.of_reads reads fun _ grows => grows).bind fun a => rest a s₀

theorem Brings.of_builds (builds : Builds x) : Brings vs (do pure (.series (← x))) :=
  fun s₀ => (builds s₀).bind fun _ => .pure fun _ added =>
    ⟨added.grows, fun _ same => .inl (Value.series.inj same ▸ added)⟩

theorem Brings.lift {e : Except Fault Value} (plain : ∀ r, e ≠ .ok (.series r)) : Brings vs (liftM e) := by
  cases e with
  | error e => exact fun _ _ grows => grows
  | ok v => exact fun _ _ grows => ⟨grows, fun r same => (plain r (same ▸ rfl)).elim⟩

theorem Brings.pure {v : Value} (old : ∀ r, v = .series r → v ∈ vs) : Brings vs (pure v) :=
  fun _ _ grows => ⟨grows, fun r same => .inr (old r same)⟩

namespace SeriesRef

variable {R : Store → Store → Prop}

theorem lift_reads {e : Except Fault α} : Obeys Eq (liftM e : SeriesM α) := by
  cases e <;> exact fun _ => rfl

section Reading

variable (r : SeriesRef)

theorem column_reads : Obeys Eq (column r) :=
  .bind .get fun _ => .pure _

theorem valid_reads : Obeys Eq (valid r) :=
  .bind .get fun _ => .pure _

theorem origin_reads : Obeys Eq (origin r) :=
  .bind .get fun _ => .pure _

theorem size_reads : Obeys Eq (size r) :=
  .bind (column_reads r) fun _ => .pure _

theorem length_reads : Obeys Eq (length r) :=
  .bind (column_reads r) fun _ => .pure _

theorem get_reads (i : Int) : Obeys Eq (get r i) :=
  .bind (column_reads r) fun _ => lift_reads

theorem getFinite_reads (i : Int) : Obeys Eq (getFinite r i) :=
  .bind (get_reads r i) fun v => by split <;> exact .pure _

end Reading

theorem holdsAt_reads (c : SeriesRef) (i : Int) : Obeys Eq (holdsAt c i) :=
  .bind (getFinite_reads c i) fun _ => lift_reads

theorem default_reads (r : SeriesRef) : Obeys Eq (default r) :=
  .bind (column_reads r) fun _ => lift_reads

theorem outOfDate_reads (r : SeriesRef) (bar : Int) : Obeys Eq (outOfDate r bar) :=
  .bind (valid_reads r) fun _ => .pure _

theorem filled_reads (r : SeriesRef) : Obeys Eq (filled r) :=
  .bind (valid_reads r) fun _ => .bind (size_reads r) fun _ => .pure _

theorem sourceName_reads (r : SeriesRef) : Obeys Eq (sourceName r) :=
  .bind (origin_reads r) fun _ => by split <;> first | exact .pure _ | exact .throw _

theorem entries_reads (vs : List Value) : Obeys Eq (entries vs) :=
  .mapM (fun v => by
    cases v with
    | series r => exact .bind (column_reads r) fun _ => .pure _
    | _ => exact .pure _) vs

theorem validOf_reads (a b : Value) : Obeys Eq (validOf a b) := by
  unfold validOf
  split
  · exact .bind (valid_reads _) fun _ => .bind (valid_reads _) fun _ => .pure _
  · exact valid_reads _
  · exact valid_reads _
  · exact .throw _

theorem operand_reads (v : Value) : Obeys Eq (operand v) := by
  cases v with
  | series r => exact .bind (column_reads r) fun _ => .pure _
  | list items => exact .bind (entries_reads items) fun _ => .bind lift_reads fun _ => .pure _
  | _ => exact .pure _

theorem originOf_reads (a b : Value) : Obeys Eq (originOf a b) := by
  unfold originOf
  split
  · exact .bind (origin_reads _) fun _ => .pure _
  · exact .bind (origin_reads _) fun _ => .pure _
  · exact .pure _

theorem make_builds {c : Column} {valid : Int} {origin : Origin} : Builds (make c valid origin) :=
  fun _ _ grows => alloc_added grows c valid origin

theorem ofValues_builds (vs : List Value) : Builds (ofValues vs) :=
  .bind (entries_reads vs) fun _ => .bind lift_reads fun _ => make_builds

theorem replicate_builds (n : Nat) (v : Value) : Builds (replicate n v) :=
  ofValues_builds _

theorem combine_builds (f : Operand → Operand → Except Fault Column) (a b : Value) :
    Builds (combine f a b) :=
  .bind (operand_reads a) fun _ => .bind (operand_reads b) fun _ => .bind lift_reads fun _ =>
    .bind (validOf_reads a b) fun _ => .bind (originOf_reads a b) fun _ => make_builds

theorem combine_eq_ok {f : Operand → Operand → Except Fault Column} {a b : Value} {s s' : Store}
    {r : SeriesRef} (h : outcome (combine f a b) s = (.ok r, s')) :
    ∃ x y c valid origin, outcome (operand a) s = (.ok x, s) ∧ outcome (operand b) s = (.ok y, s) ∧
      f x y = .ok c ∧ (r, s') = s.alloc c valid origin := by
  obtain ⟨x, first, h⟩ := (operand_reads a).bind_eq_ok h
  obtain ⟨y, second, h⟩ := (operand_reads b).bind_eq_ok h
  obtain ⟨c, computed, h⟩ := lift_reads.bind_eq_ok h
  obtain ⟨valid, _, h⟩ := (validOf_reads a b).bind_eq_ok h
  obtain ⟨origin, _, h⟩ := (originOf_reads a b).bind_eq_ok h
  cases h
  exact ⟨x, y, c, valid, origin, first, second, (SeriesM.lift_eq_ok computed).1, rfl⟩

theorem logic_builds (isAnd : Bool) (r : SeriesRef) (other : Value) : Builds (logic isAnd r other) :=
  .bind (column_reads r) fun _ => .bind lift_reads fun _ => .bind (operand_reads other) fun _ =>
    .bind lift_reads fun _ => .bind (validOf_reads _ _) fun _ => .bind (origin_reads r) fun _ =>
      make_builds

theorem mapColumn_builds (f : Column → Except Fault Column) (r : SeriesRef) : Builds (mapColumn f r) :=
  .bind (column_reads r) fun _ => .bind lift_reads fun _ => .bind (valid_reads r) fun _ =>
    .bind (origin_reads r) fun _ => make_builds

theorem logicalNot_builds (r : SeriesRef) : Builds (logicalNot r) :=
  mapColumn_builds _ r

theorem sign_builds (r : SeriesRef) : Builds (sign r) :=
  mapColumn_builds _ r

theorem copy_builds (r : SeriesRef) : Builds (copy r) :=
  mapColumn_builds _ r

theorem finite_grows (r : SeriesRef) : Obeys Grows (finite r) :=
  .bind (.of_reads (column_reads r)) fun _ => by
    split
    · exact (mapColumn_builds _ r).grows
    · exact .pure _

/-! Writing to a series that was added. -/

variable {s₀ : Store} {r : SeriesRef}

theorem reads_added {x : SeriesM α} (reads : Obeys Eq x) : Leads s₀.Grows (s₀.Added · r) x fun _ s => s₀.Added s r :=
  .of_reads reads fun _ added => added.grows

theorem set_added (i : Int) (v : Value) :
    Leads s₀.Grows (s₀.Added · r) (set r i v) fun _ s => s₀.Added s r :=
  (reads_added (column_reads r)).bind fun _ => (reads_added lift_reads).bind fun c _ added => added.setColumn c

theorem setValid_added (valid : Int) :
    Leads s₀.Grows (s₀.Added · r) (setValid r valid) fun _ s => s₀.Added s r :=
  fun _ added => added.setValid valid

theorem stamp_added (valid : Int) :
    Leads s₀.Grows (s₀.Added · r) (do r.setValid valid; pure r) fun r s => s₀.Added s r :=
  (setValid_added valid).bind fun _ => .pure fun _ added => added

theorem append_added (v : Value) :
    Leads s₀.Grows (s₀.Added · r) (append r v) fun _ s => s₀.Added s r :=
  (reads_added (valid_reads r)).bind fun _ => (setValid_added _).bind fun _ => (set_added _ v).bind fun _ =>
    .pure fun _ added => added

theorem update_obeys [Std.Refl R] {f : Column → Except Fault Column}
    (made : ∀ s c, f (s.column r) = .ok c → R s (s.setColumn r c)) : Obeys R (r.update f) := by
  intro s
  have read : outcome r.column s = (.ok (s.column r), s) := rfl
  rw [leaves, update, bind_ok read]
  cases given : f (s.column r) with
  | error e => exact Std.Refl.refl s
  | ok c => exact made s c given

theorem replaceUnless_obeys [Std.Refl R] [Trans R R R]
    (set : ∀ i v, Obeys R (r.set i v)) (cond other : SeriesRef) (n : Nat) : Obeys R (r.replaceUnless cond other n) :=
  .forM (fun _ => .bind (.of_reads (get_reads cond _)) fun _ => .bind (.of_reads lift_reads) fun _ => by
    split
    · exact .bind (.of_reads (get_reads other _)) fun _ => set _ _
    · exact .pure _) _

theorem shift_builds (r : SeriesRef) {offset : Int} (moves : offset ≠ 0) : Builds (shift r offset) := by
  unfold shift
  rw [if_neg (by simpa using moves)]
  refine .bind (default_reads r) fun d => .bind (size_reads r) fun n => fun s₀ => ?_
  have closing (moved : SeriesRef) : Leads s₀.Grows (s₀.Added · moved)
      (do moved.setValid (← r.valid); pure moved) fun r s => s₀.Added s r :=
    (reads_added (valid_reads r)).bind fun _ => stamp_added _
  split
  · exact (replicate_builds _ _ s₀).bind fun moved => closing moved
  · refine (mapColumn_builds _ r s₀).bind fun moved => ?_
    exact (Leads.forM (fun i => set_added _ d) _).bind fun _ => closing moved

theorem shift_zero (r : SeriesRef) : shift r 0 = pure r := rfl

theorem shift_grows (r : SeriesRef) (offset : Int) : Obeys Grows (shift r offset) := by
  by_cases moves : offset = 0
  · rw [moves, shift_zero]
    exact .pure _
  · exact (shift_builds r moves).grows

theorem blank_builds (r : SeriesRef) : Builds (blank r) :=
  .bind (size_reads r) fun _ => .bind (default_reads r) fun _ => fun s₀ =>
    (replicate_builds _ _ s₀).bind fun _ => (reads_added (valid_reads r)).bind fun _ => stamp_added _

theorem toMutable_builds (r : SeriesRef) : Builds (toMutable r) :=
  .bind (size_reads r) fun _ => .bind (default_reads r) fun _ => fun s₀ =>
    (replicate_builds _ _ s₀).bind fun _ => (reads_added (get_reads r 0)).bind fun _ =>
      (set_added _ _).bind fun _ => stamp_added _

theorem unknown_builds (n : Nat) (v : Value) : Builds (unknown n v) :=
  fun s₀ => (replicate_builds n v s₀).bind fun _ => stamp_added _

theorem mutable_builds (v : Value) (n : Nat) : Builds (mutable v n) :=
  fun s₀ => (replicate_builds _ _ s₀).bind fun _ => (set_added _ _).bind fun _ => stamp_added _

end SeriesRef

namespace Indicator

open SeriesRef

theorem asSeries_grows (bars : Nat) (v : Value) : Obeys Grows (asSeries bars v) := by
  cases v with
  | series r => exact .pure _
  | _ => exact (replicate_builds _ _).grows

theorem magnitude_ne_series (v : Value) (r : SeriesRef) : v.magnitude ≠ .ok (.series r) := by
  unfold Value.magnitude
  split <;> nofun

theorem abs_brings (v : Value) : Brings [] (abs v) := by
  cases v with
  | series r =>
    refine .bind (column_reads r) fun _ => .bind lift_reads fun _ =>
      .bind (valid_reads r) fun _ => .of_builds make_builds
  | _ => exact .lift (magnitude_ne_series _)

theorem barssince_builds (bars : Nat) (condition : Value) : Builds (barssince bars condition) := by
  unfold barssince
  split
  · intro s₀
    refine (replicate_builds _ _ s₀).bind fun dest => (reads_added (valid_reads _)).bind fun _ => ?_
    refine (Leads.foldlM (fun count i => ?_) _ _).bind fun _ => (reads_added (valid_reads _)).bind fun _ =>
      stamp_added _
    exact (reads_added (holdsAt_reads _ _)).bind fun _ => (set_added _ _).bind fun _ =>
      .pure fun _ added => added
  · split
    · exact ofValues_builds _
    · exact replicate_builds _ _

theorem crossing_builds (bars : Nat) (x : SeriesRef) (y : Value)
    (test : (now before : Value × Value) → Except Fault Value) : Builds (crossing bars x y test) := by
  refine .bind_grows (asSeries_grows bars y) fun y => fun s₀ => ?_
  refine (mutable_builds _ _ s₀).bind fun crossed => (reads_added (valid_reads _)).bind fun _ =>
    (reads_added (valid_reads _)).bind fun _ => ?_
  refine (Leads.forM (fun i => ?_) _).bind fun _ => .pure fun _ added => added
  exact (reads_added (get_reads _ _)).bind fun _ => (reads_added (get_reads _ _)).bind fun _ =>
    (reads_added (get_reads _ _)).bind fun _ => (reads_added (get_reads _ _)).bind fun _ =>
      (reads_added lift_reads).bind fun _ => (append_added _).bind fun _ =>
        .pure fun _ added => added

theorem na_brings (v : Value) : Brings [] (na v) := by
  cases v with
  | series r =>
    refine .bind (column_reads r) fun _ => .bind (valid_reads r) fun _ =>
      .bind (.mapM (fun v => .bind lift_reads fun _ => .pure _) _) fun _ => ?_
    exact .bind lift_reads fun _ => .bind lift_reads fun _ =>
      .bind lift_reads fun _ => .of_builds make_builds
  | _ => exact .bind lift_reads fun _ => .pure nofun

theorem nz_brings (v substitute : Value) : Brings [v, substitute] (nz v substitute) := by
  have single : Brings [v, substitute] (do
      let isNaN ← (liftM v.isNaN : SeriesM Bool)
      pure (if isNaN then substitute else v)) :=
    .bind lift_reads fun isNaN => .pure fun _ _ => by cases isNaN <;> simp
  cases v with
  | series r =>
    refine .bind (column_reads r) fun _ => .bind (valid_reads r) fun _ =>
      .bind (.mapM (fun v => .bind lift_reads fun _ => .pure _) _) fun known => fun s₀ => ?_
    exact (ofValues_builds _ s₀).bind fun dest => (setValid_added _).bind fun _ =>
      .pure fun _ added => ⟨added.grows, fun _ same => .inl (Value.series.inj same ▸ added)⟩
  | _ => exact single

theorem extreme_builds (larger : Bool) (x y : Value) : Builds (extreme larger x y) := by
  unfold extreme
  split
  next a b =>
    refine .bind (column_reads a) fun ca => .bind (column_reads b) fun cb => ?_
    split
    · exact .throw _
    · exact .bind (.mapM (fun _ => lift_reads) _) fun _ => .bind lift_reads fun _ =>
        .bind (valid_reads a) fun _ => .bind (valid_reads b) fun _ => make_builds
  next => exact .throw _

theorem pivot_builds (larger : Bool) (source : SeriesRef) (left right : Int) :
    Builds (pivot larger source left right) :=
  .bind (column_reads source) fun _ => by
    dsimp only
    split
    · exact replicate_builds _ _
    · refine .bind (.mapM (fun i => ?_) _) fun _ => ofValues_builds _
      exact .bind lift_reads fun _ => .bind lift_reads fun _ =>
        .bind lift_reads fun _ => .pure _

theorem rma_builds (source : SeriesRef) (length : Int) : Builds (rma source length) :=
  .bind (column_reads source) fun c => by
    dsimp only
    split
    · exact copy_builds source
    · refine .bind lift_reads fun _ => ?_
      refine .bind (.foldlM (fun r i => ?_) _ _) fun _ => ?_
      · refine .bind lift_reads fun _ => .bind lift_reads fun _ =>
          .bind lift_reads fun isNaN => ?_
        split
        · exact .pure _
        · exact .bind lift_reads fun _ => .bind lift_reads fun _ =>
            .bind lift_reads fun _ => .bind lift_reads fun _ => .pure _
      · exact fun s₀ => (ofValues_builds _ s₀).bind fun _ =>
          (reads_added (valid_reads source)).bind fun _ => stamp_added _

theorem valuewhen_builds (bars : Nat) (condition : Value) (source : SeriesRef) (occurrence : Int) :
    Builds (valuewhen bars condition source occurrence) := by
  unfold valuewhen
  split
  next c =>
    refine .bind (valid_reads c) fun _ => .bind (valid_reads source) fun _ =>
      .bind (default_reads source) fun d => ?_
    refine .bind (.foldlM (fun found i => ?_) _ _) fun found => ?_
    · have next (held : List Value) : Obeys Eq (do
          let v ← if occurrence < (held.length : Int) then
              (liftM (Value.itemOf held (-occurrence - 1)) : SeriesM Value)
            else pure d
          pure (held, found.2 ++ [v])) := by
        split
        · exact .bind lift_reads fun _ => .pure _
        · exact .pure _
      refine .bind (holdsAt_reads c _) fun holds => ?_
      split
      · exact .bind (get_reads source _) fun _ => next _
      · exact next _
    · exact fun s₀ => (ofValues_builds _ s₀).bind fun _ => stamp_added _
  next =>
    split
    · exact .throw _
    · exact blank_builds source

end Indicator

end PineEngine
