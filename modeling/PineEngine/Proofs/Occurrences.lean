import Mathlib.Tactic.IntervalCases
import PineEngine.Proofs.Blocks
import PineEngine.Proofs.Performing

/-! # Past occurrences of a condition

`barssince` counts the bars since a condition held, and `valuewhen` finds the entry of a source at a past bar where it
held. Both loop over the bars that are valid; what they know of the past is the list of the bars at which the condition
held (`marks`).
-/

namespace PineEngine

variable {f : Value → Value}

open Computation List

/-- The kinds of truth values and numbers of which a series has a default entry. -/
def Kind.Plain (k : Kind) : Prop :=
  k = .bool ∨ k = .int .long ∨ k = .float

def Value.asCell : Value → Value
  | .bool b => .cell (.bool b)
  | .int n => .cell (.int .long n)
  | .float x => .cell (.float x)
  | v => v

def Kind.Takes (k : Kind) (v : Value) : Prop :=
  Kind.ofValue v = k ∧ Cells.cellOf k v = .ok v.asCell

variable {k : Kind} {v d : Value} {vs : List Value} {i n : Nat} {s : Store}

theorem Kind.takes_cell (own : Cells.cellOf k v = .ok v) (plain : k.Plain) : k.Takes v ∧ v.asCell = v := by
  obtain rfl | rfl | rfl := plain
  · rw [← Except.ok.inj own]
    exact ⟨⟨rfl, rfl⟩, rfl⟩
  · obtain ⟨n, _, rfl⟩ := map_eq_ok own
    exact ⟨⟨rfl, own⟩, rfl⟩
  · obtain ⟨x, _, rfl⟩ := map_eq_ok own
    exact ⟨⟨rfl, own⟩, rfl⟩

theorem SeriesRef.takes_default (plain : k.Plain) (default : defaultOf k = .ok d) : k.Takes d := by
  obtain rfl | rfl | rfl := plain <;> cases default <;> exact ⟨rfl, rfl⟩

theorem Value.isTrue_of_holds (told : v.holds? = some true) : v.isTrue := by
  unfold Value.holds? at told
  split at told <;> simp_all [Value.isTrue, Cell.isTrue]

theorem mapM_of_map {α : Type} {g : Value → Except Fault α} {h : α → Value}
    (all : ∀ v ∈ vs, (g v).map h = .ok (f v)) : ∃ xs, vs.mapM g = .ok xs ∧ xs.map h = vs.map f := by
  induction vs with
  | nil => exact ⟨[], rfl, rfl⟩
  | cons v vs ih =>
    obtain ⟨x, made, same⟩ := map_eq_ok (all v (.head _))
    obtain ⟨xs, rest, sames⟩ := ih fun v mem => all v (.tail _ mem)
    refine ⟨x :: xs, ?_, by rw [map_cons, map_cons, same, sames]⟩
    rw [mapM_cons, made, rest]
    rfl

theorem Column.Holds.get {c : Column} (holds : c.Holds k vs) (found : vs[i]? = some v) : c.get i = .ok v := by
  obtain ⟨same, cells⟩ := holds.cells
  rw [← cells, Cells.toList_getElem?] at found
  rw [same]
  refine get_flat found ?_
  rw [← Cells.length_toList]
  rw [← Cells.toList_getElem?] at found
  exact (List.getElem?_eq_some_iff.mp found).1

theorem Column.holds_of_cells (plain : k.Plain) (single : ∀ v ∈ vs, items? v = none)
    (kind : kindOf vs = k) (cells : ∀ v ∈ vs, Cells.cellOf k v = .ok (f v)) :
    ∃ c, ofValues vs = .ok c ∧ c.Holds k (vs.map f) := by
  rw [ofValues_singles single, kind]
  obtain rfl | rfl | rfl := plain
  · refine ⟨_, rfl, rfl, rfl, ?_⟩
    show (Cells.bools _).toList = _
    rw [Cells.toList, map_map]
    exact map_congr_left fun v mem => Except.ok.inj (cells v mem)
  · obtain ⟨xs, made, entries⟩ := mapM_of_map cells
    exact ⟨⟨.ints .long xs.toArray, none⟩, by rw [Cells.ofValuesAs, made]; rfl, rfl, rfl, entries⟩
  · obtain ⟨xs, made, entries⟩ := mapM_of_map cells
    exact ⟨⟨.floats xs.toArray, none⟩, by rw [Cells.ofValuesAs, made]; rfl, rfl, rfl, entries⟩

theorem Column.holds_ofValues (plain : k.Plain) (takes : ∀ v ∈ vs, k.Takes v) :
    ∃ c, ofValues vs = .ok c ∧ (vs ≠ [] → c.Holds k (vs.map Value.asCell)) := by
  by_cases some : vs = []
  · subst some
    exact ⟨_, rfl, fun some => (some rfl).elim⟩
  have machine : k ≠ .object := by
    rintro rfl
    simp [Kind.Plain] at plain
  have single (v : Value) (mem : v ∈ vs) : items? v = none :=
    Value.items_of_single (Value.single_of_machine ((takes v mem).1 ▸ machine))
  obtain ⟨c, made, holds⟩ := holds_of_cells plain single (kindOf_uniform some fun v mem => (takes v mem).1)
    fun v mem => (takes v mem).2
  exact ⟨c, made, fun _ => holds⟩

/-- A new series with a value for each of `n` bars. -/
theorem SeriesRef.ofRange_entries {f : Nat → Value} (plain : k.Plain) (takes : ∀ i < n, k.Takes (f i)) (s : Store) :
    ∃ c, outcome (ofValues ((range n).map f)) s =
        (.ok ⟨s.series.size⟩, (s.alloc c ((n : Int) - 1) .plain).2) ∧
      ∀ i < n, c.get (i : Int) = .ok (f i).asCell := by
  have takes (v : Value) (mem : v ∈ (range n).map f) : k.Takes v := by
    obtain ⟨i, low, rfl⟩ := mem_map.mp mem
    exact takes i (mem_range.mp low)
  have plainly (q : SeriesRef) (mem : .series q ∈ (range n).map f) : False := by
    have object : k = .object := (takes _ mem).1.symm
    simp [Kind.Plain, object] at plain
  obtain ⟨c, made, holds⟩ := Column.holds_ofValues plain takes
  refine ⟨c, by simpa using outcome_ofValues plainly made s, fun i low => ?_⟩
  refine (holds (ne_nil_of_length_pos (by simp; omega))).get ?_
  rw [getElem?_map, getElem?_map, getElem?_range low]
  rfl

/-- A series of `n` cells of a kind. -/
structure Store.Typed (s : Store) (n : Nat) (k : Kind) (r : SeriesRef) : Prop where
  size : (s.column r).size = n
  kind : (s.column r).cells.kind = k
  entries : ∀ i < n, ∃ v, (s.column r).get (i : Int) = .ok v ∧ Cells.cellOf k v = .ok v

/-- A series tells at each of `n` bars whether it holds: its entries are truth values or numbers. -/
def Store.Tells (s : Store) (n : Nat) (held : Nat → Bool) (c : SeriesRef) : Prop :=
  ∀ i < n, ∃ a, (s.column c).get (i : Int) = .ok (.cell a) ∧ (Value.cell a).holds? = some (held i)

theorem Store.Tells.truth {held : Nat → Bool} {c : SeriesRef} (tells : s.Tells n held c) (i : Nat) (low : i < n) :
    (s.column c).truthAt i = .ok (held i) := by
  obtain ⟨a, got, told⟩ := tells i low
  rw [Column.truthAt, got, ok_bind]
  cases a with
  | float x =>
    rw [← Option.some.inj told, ← Column.finiteFloat_holds]
    rfl
  | text => cases told
  | _ => exact congrArg Except.ok (Option.some.inj told)

namespace Indicator

variable {held : Nat → Bool} {n k j : Nat}

def marks (held : Nat → Bool) (k : Nat) : List Nat :=
  (range k).filter held

/-- The bars since a condition held at one of the first bars; all of them, if it did not. -/
def barsAfter (held : Nat → Bool) (k : Nat) : Nat :=
  (marks held k).getLast?.elim k (k - 1 - ·)

/-- The last bar up to `i` at which a condition held, or the one that is `k` such bars before it. -/
def recent (held : Nat → Bool) (k i : Nat) : Option Nat :=
  (marks held (i + 1)).reverse[k]?

theorem marks_succ (held : Nat → Bool) (k : Nat) :
    marks held (k + 1) = if held k then marks held k ++ [k] else marks held k := by
  rw [marks, marks, range_succ, filter_append]
  by_cases holds : held k <;> simp [holds]

theorem marks_lt (mem : j ∈ marks held k) : j < k :=
  mem_range.mp (mem_filter.mp mem).1

theorem recent_lt (found : recent held k i = some j) : j < i + 1 :=
  marks_lt (mem_reverse.mp (mem_of_getElem? found))

theorem barsAfter_succ (held : Nat → Bool) (k : Nat) :
    barsAfter held (k + 1) = if held k then 0 else barsAfter held k + 1 := by
  rw [barsAfter, barsAfter, marks_succ]
  by_cases holds : held k
  · simp [holds]
  · rw [if_neg holds, if_neg holds]
    cases last : (marks held k).getLast? with
    | none => rfl
    | some j =>
      have low := marks_lt (mem_of_getLast? last)
      simp only [Option.elim]
      omega

theorem barsAfter_le (held : Nat → Bool) (k : Nat) : barsAfter held k ≤ k := by
  induction k with
  | zero => exact Nat.le_refl 0
  | succ k ih =>
    rw [barsAfter_succ]
    split <;> omega

theorem recent_zero (some : marks held (i + 1) ≠ []) :
    barsAfter held (i + 1) ≤ i ∧ recent held 0 i = .some (i - barsAfter held (i + 1)) := by
  obtain ⟨j, last⟩ := Option.isSome_iff_exists.mp (getLast?_isSome.mpr some)
  have low := marks_lt (mem_of_getLast? last)
  have bars : barsAfter held (i + 1) = i - j := by
    rw [barsAfter, last]
    rfl
  rw [recent, ← head?_eq_getElem?, head?_reverse, last, bars]
  exact ⟨by omega, congrArg _ (by omega)⟩

variable {s : Store} {c : SeriesRef}

theorem takes_count (short : k < 2 ^ 63) : (Kind.int .long).Takes (.int k) := by
  refine ⟨by rw [Kind.ofValue, if_pos (long_holds short)], ?_⟩
  rw [Cells.cellOf, Cells.intCell, show (Value.int (k : Int)).toInt = .ok (k : Int) from rfl, ok_bind,
    if_pos (long_holds short)]
  rfl

theorem count_run {cond zeros : Column} (short : n < 2 ^ 63) (truth : ∀ i < n, cond.truthAt i = .ok (held i))
    (start : 0 < n → zeros.Holds (.int .long) (replicate n (.cell (.int .long 0)))) (le : k ≤ n) :
    ∃ d, (range k).foldlM (count cond) (0, zeros) = .ok ((barsAfter held k : Int), d) ∧
      (0 < n → ∃ vs, d.Holds (.int .long) vs ∧ vs.length = n ∧
        ∀ i < k, vs[i]? = some (.cell (.int .long (barsAfter held (i + 1))))) := by
  induction k with
  | zero => exact ⟨zeros, rfl, fun some => ⟨_, start some, length_replicate, by simp⟩⟩
  | succ k ih =>
    obtain ⟨d, ran, holds⟩ := ih (by omega)
    obtain ⟨vs, holds, length, entries⟩ := holds (by omega)
    have bars : (if held k then 0 else (barsAfter held k : Int) + 1) = (barsAfter held (k + 1) : Nat) := by
      rw [barsAfter_succ]
      split <;> simp
    obtain ⟨d', set, holds'⟩ := holds.set (i := k) (j := k) (Column.position?_natCast.mpr ⟨rfl, by omega⟩)
      (takes_count (Nat.lt_of_le_of_lt (Nat.le_trans (barsAfter_le held (k + 1)) le) short)).2
    refine ⟨d', ?_, fun _ => ⟨_, holds', by simpa using length, fun i low => ?_⟩⟩
    · rw [range_succ, foldlM_append, ran, ok_bind, foldlM_cons, count, truth k (by omega), ok_bind]
      dsimp only
      rw [bars, set]
      rfl
    · rw [getElem?_set]
      split
      next last =>
        rw [if_pos (by omega), last]
        rfl
      next other => exact entries i (by omega)

variable {l : Nat}

/-- What `barssince` finds for a series that is known at the first bars. -/
theorem barssince_entries (straight : s.Straight) (present : c.id < s.series.size) (short : n < 2 ^ 63)
    (tells : s.Tells n held c) (valid : s.valid c = (l : Int) - 1) (le : l ≤ n) :
    ∃ r s', outcome (barssince n (.series c)) s = (.ok r, s') ∧
      ∀ i < l, (s'.column r).get (i : Int) = .ok (.cell (.int .long (barsAfter held (i + 1)))) := by
  have takes (v : Value) (mem : v ∈ replicate n (.int 0)) : (Kind.int .long).Takes v :=
    eq_of_mem_replicate mem ▸ takes_count (k := 0) (by omega)
  obtain ⟨zeros, made, start⟩ := Column.holds_ofValues (.inr (.inl rfl)) takes
  obtain ⟨d, ran, holds⟩ := count_run short tells.truth
    (fun some => by simpa [Value.asCell] using start (by simp; omega)) le
  have answers := barssince_adds (n := n) straight present valid
  rw [made, ok_bind, ran, ok_bind] at answers
  obtain ⟨r, s', found, rfl, _, origin, rfl⟩ := answers
  refine ⟨_, _, found, fun i low => ?_⟩
  rw [show (s.alloc d _ _).2.column ⟨s.series.size⟩ = d from Store.column_alloc s ..]
  obtain ⟨vs, holds, _, entries⟩ := holds (by omega)
  exact holds.get (entries i low)

theorem itemOf_last {β : Type} (items : List Value) (d : Value) (k : Nat) (f : Value → Except Fault β) :
    (if (k : Int) < (items.length : Int) then Value.itemOf items (-k - 1) >>= f else pure d >>= f) =
      f (items.reverse[k]?.getD d) := by
  split
  next low =>
    have inside : items.length - 1 - k < items.length := by omega
    have place : Column.position? items.length (-(k : Int) - 1) = some (items.length - 1 - k) := by
      rw [Column.position?, if_neg (by omega), if_pos (by omega)]
      exact congrArg some (by omega)
    simp only [Value.itemOf, place, getElem?_reverse (Int.ofNat_lt.mp low), getElem?_eq_getElem inside]
    rfl
  next high =>
    rw [getElem?_eq_none (by rw [length_reverse]; omega)]
    rfl

theorem remember_run {cond source : Column} {val : Nat → Value} (truth : ∀ i < n, cond.truthAt i = .ok (held i))
    (got : ∀ i < n, source.get (i : Int) = .ok (val i)) (k : Nat) (le : l ≤ n) :
    (range l).foldlM (remember cond source d k) ([], []) =
      .ok ((marks held l).map val, (range l).map fun i => (recent held k i).elim d val) := by
  induction l with
  | zero => rfl
  | succ i ih =>
    have found : ((marks held (i + 1)).map val).reverse[k]?.getD d = (recent held k i).elim d val := by
      rw [recent, ← map_reverse, getElem?_map]
      cases (marks held (i + 1)).reverse[k]? <;> rfl
    have next (vs : List Value) : remember cond source d k ((marks held i).map val, vs) i =
        .ok ((marks held (i + 1)).map val, vs ++ [(recent held k i).elim d val]) := by
      rw [remember, truth i (by omega), ok_bind, ← found, marks_succ]
      cases held i with
      | false => exact itemOf_last ..
      | true =>
        simp only [if_true, got i (by omega), ok_bind, map_append, map_singleton]
        exact itemOf_last ..
    rw [range_succ, foldlM_append, ih (by omega), ok_bind, foldlM_cons, next, map_append]
    rfl

theorem map_range_append {f : Nat → Value} (le : l ≤ n) (d : Value) :
    (range l).map f ++ replicate (n - l) d = (range n).map fun i => if i < l then f i else d := by
  apply ext_getElem
  · simp [le]
  · intro i low _
    rw [getElem_append]
    simp

/-- What `valuewhen` finds for two series that are known at the first bars. -/
theorem valuewhen_entries {r : SeriesRef} {kind : Kind} (tells : s.Tells n held c) (plain : kind.Plain)
    (numbers : s.Typed n kind r) (default : SeriesRef.defaultOf kind = .ok d)
    (valid : min (s.valid c) (s.valid r) = (l : Int) - 1) (le : l ≤ n) (k : Nat) :
    ∃ s', outcome (valuewhen n (.series c) r k) s = (.ok ⟨s.series.size⟩, s') ∧
      s'.valid ⟨s.series.size⟩ = min (s.valid c) (s.valid r) ∧
      ∀ i < n, (s'.column ⟨s.series.size⟩).get (i : Int) =
        if i < l then (recent held k i).elim (.ok d.asCell) (fun j => (s.column r).get (j : Int)) else .ok d.asCell := by
  choose! val got own using numbers.entries
  have takes (i : Nat) (low : i < n) : kind.Takes (if i < l then (recent held k i).elim d val else d) := by
    split
    · cases found : recent held k i with
      | none => exact SeriesRef.takes_default plain default
      | some j => exact (Kind.takes_cell (own j (Nat.lt_of_lt_of_le (recent_lt found) low)) plain).1
    · exact SeriesRef.takes_default plain default
  obtain ⟨col, made, entries⟩ := SeriesRef.ofRange_entries plain takes s
  refine ⟨(s.alloc col (min (s.valid c) (s.valid r)) .plain).2, ?_, by rw [Store.valid, Store.head_alloc], fun i low => ?_⟩
  · have gaps : ((n : Int) - ((l : Int) - 1 + 1)).toNat = n - l := by omega
    have defaults : outcome r.default s = (.ok d, s) := by rw [SeriesRef.outcome_default, numbers.kind, default]
    rw [valuewhen, bind_ok (SeriesRef.outcome_valid c s), bind_ok (SeriesRef.outcome_valid r s)]
    dsimp only
    rw [valid, upTo_last, bind_ok defaults, bind_ok ((outcome_foldlM_reading
      (outcome_remember c r d k · · s) _ _).trans (by rw [remember_run tells.truth got k le]))]
    rw [gaps, map_range_append le, bind_ok made, bind_ok (SeriesRef.outcome_setValid ..),
      Store.setValid_alloc]
    rfl
  · rw [show (s.alloc col _ _).2.column ⟨s.series.size⟩ = col from Store.column_alloc s .., entries i low]
    split
    · cases found : recent held k i with
      | none => rfl
      | some j =>
        have low : j < n := Nat.lt_of_lt_of_le (recent_lt found) low
        rw [Option.elim_some, Option.elim_some, got j low, (Kind.takes_cell (own j low) plain).2]
    · rfl

end Indicator

namespace Machine

open Indicator

variable {m : Machine} {v : Value} {r : SeriesRef} {s' : Store}

theorem apply_barssince (h : v ≠ .absent) (m : Machine) : outcome (apply .barssince [v] []) m =
    outcome (do pure (.series (← onStore (barssince m.size v)))) m := by
  have bound : outcome (Machine.bind Builtin.Function.barssince.signature [v] []) m = (.ok [("condition", v)], m) := by
    rw [outcome_arguments]
    cases v <;> first | rfl | exact (h rfl).elim
  rw [apply, bind_ok bound, bind_ok (show outcome barCount m = (.ok m.size, m) from rfl)]
  rfl

theorem apply_valuewhen (h : v ≠ .absent) (r : SeriesRef) (k : Int) (m : Machine) :
    outcome (apply .valuewhen [v, .series r, .int k] []) m =
      outcome (do pure (.series (← onStore (valuewhen m.size v r k)))) m := by
  have bound : outcome (Machine.bind Builtin.Function.valuewhen.signature [v, .series r, .int k] []) m =
      (.ok [("condition", v), ("source", .series r), ("occurrence", .int k)], m) := by
    rw [outcome_arguments]
    cases v <;> first | rfl | exact (h rfl).elim
  have source : seriesArg [("condition", v), ("source", .series r), ("occurrence", .int k)] "source" = .ok r := rfl
  have occurrence : intArg [("condition", v), ("source", .series r), ("occurrence", .int k)] "occurrence" = .ok k := rfl
  rw [apply, bind_ok bound, bind_ok (show outcome barCount m = (.ok m.size, m) from rfl), source,
    bind_ok (outcome_liftM ..), occurrence, bind_ok (outcome_liftM ..)]
  rfl

theorem outcome_series {x : SeriesM SeriesRef} (made : outcome x m.store = (.ok r, s')) :
    outcome (do pure (.series (← onStore x)) : MachineM Value) m = (.ok (.series r), { m with store := s' }) := by
  rw [bind_ok (by rw [outcome_onStore, made])]
  rfl

/-- Let `held` tell at which of the `n` bars the series `c` holds. Where both series are valid, `valuewhen` gives the
    entry of `s` at the bar where `c` held last, or `k` times before, and elsewhere the default entry; it is valid where
    both are. `barssince` counts the bars since `c` held, or all bars. -/
theorem occurrences_found {c s : SeriesRef} {n : Nat} {held : Nat → Bool} {kind : Kind} {d : Value}
    (straight : m.store.Straight) (present : c.id < m.store.series.size) (bars : m.size = n) (short : n < 2 ^ 63)
    (tells : m.store.Tells n held c) (plain : kind.Plain) (numbers : m.store.Typed n kind s)
    (default : SeriesRef.defaultOf kind = .ok d) (validC : -1 ≤ m.store.valid c ∧ m.store.valid c < n)
    (validS : -1 ≤ m.store.valid s ∧ m.store.valid s < n) (k : Nat) :
    ∃ r m₁ q m₂, outcome (apply .barssince [.series c] []) m = (.ok (.series r), m₁) ∧
      outcome (apply .valuewhen [.series c, .series s, .int k] []) m = (.ok (.series q), m₂) ∧
      m₂.store.valid q = min (m.store.valid c) (m.store.valid s) ∧
      (∀ i : Nat, (i : Int) ≤ m.store.valid c →
        (m₁.store.column r).get i = .ok (.cell (.int .long (barsAfter held (i + 1))))) ∧
      (∀ i : Nat, i < n → (m₂.store.column q).get i =
        if (i : Int) ≤ min (m.store.valid c) (m.store.valid s) then
          (recent held k i).elim (.ok d.asCell) fun j => (m.store.column s).get j
        else .ok d.asCell) ∧
      (k = 0 → ∀ i j : Nat, (i : Int) ≤ min (m.store.valid c) (m.store.valid s) → j ≤ i → held j →
        ∃ back ≤ i, (m₁.store.column r).get i = .ok (.cell (.int .long back)) ∧
          (m₂.store.column q).get i = (m.store.column s).get (i - back : Nat)) := by
  subst bars
  obtain ⟨_, s₁, counted, counts⟩ := barssince_entries (l := (m.store.valid c + 1).toNat) straight present short tells
    (by omega) (by omega)
  obtain ⟨s₂, found, valid, entries⟩ := valuewhen_entries
    (l := (min (m.store.valid c) (m.store.valid s) + 1).toNat) tells plain numbers default (by omega) (by omega) k
  refine ⟨_, _, _, _, (apply_barssince (by simp) m).trans (outcome_series counted),
    (apply_valuewhen (by simp) s k m).trans (outcome_series found), valid, fun i low => counts i (by omega),
    fun i low => ?_, ?_⟩
  · rw [entries i low]
    exact if_congr (by omega) rfl rfl
  · rintro rfl i j low le here
    have some : marks held (i + 1) ≠ [] :=
      ne_nil_of_mem (List.mem_filter.mpr ⟨List.mem_range.mpr (Nat.lt_succ_of_le le), here⟩)
    obtain ⟨less, last⟩ := recent_zero some
    refine ⟨barsAfter held (i + 1), less, counts i (by omega), ?_⟩
    rw [entries i (by omega), if_pos (by omega), last]
    rfl

/-- A machine with a condition that holds at the second and the fourth of four bars, and is valid at three. -/
def watching : Machine :=
  let conditions := (({} : Store).alloc ⟨.floats #[0.0, 1.0, notANumber, 2.0], none⟩ 2 .plain).2
  { new .plain (.flat [1.0, 2.0, 3.0, 4.0]) with
    store := (conditions.alloc ⟨.ints .long #[10, 20, 30, 40], none⟩ 3 .plain).2 }

theorem occurrences_found_watching : ∃ r m₁ q m₂,
    outcome (apply .barssince [.series ⟨0⟩] []) watching = (.ok (.series r), m₁) ∧
    outcome (apply .valuewhen [.series ⟨0⟩, .series ⟨1⟩, .int 0] []) watching = (.ok (.series q), m₂) ∧
    m₂.store.valid q = 2 ∧ (m₁.store.column r).get 2 = .ok (.cell (.int .long 1)) ∧
    (m₂.store.column q).get 2 = .ok (.cell (.int .long 20)) ∧ (m₂.store.column q).get 3 = .ok (.cell (.int .long 0)) := by
  have straight : watching.store.Straight := Store.Straight.alloc (Store.Straight.alloc ⟨rfl, by simp⟩ ..) ..
  have tells : watching.store.Tells 4 (fun i => i == 1 || i == 3) ⟨0⟩ := by
    intro i low
    interval_cases i <;> exact ⟨_, rfl, by decide +kernel⟩
  have typed : watching.store.Typed 4 (.int .long) ⟨1⟩ :=
    ⟨rfl, rfl, fun i low => by interval_cases i <;> exact ⟨_, rfl, rfl⟩⟩
  obtain ⟨r, m₁, q, m₂, counted, found, valid, counts, entries, _⟩ := occurrences_found (c := ⟨0⟩) (s := ⟨1⟩)
    straight (by decide) rfl (by decide) tells (.inr (.inl rfl)) typed rfl (by decide) (by decide) 0
  exact ⟨r, m₁, q, m₂, counted, found, valid, counts 2 (by decide), entries 2 (by decide), entries 3 (by decide)⟩

theorem barssince_number {t : Bool} (number : v.holds? = some t) (short : n < 2 ^ 63) :
    ∃ s', outcome (barssince n v) s = (.ok ⟨s.series.size⟩, s') ∧ ∀ i < n, (s'.column ⟨s.series.size⟩).get (i : Int) =
      .ok (.cell (.int .long (if v.isTrue then i + 1 else 0 : Nat))) := by
  obtain ⟨col, made, entries⟩ := SeriesRef.ofRange_entries (n := n) (f := fun i => .int (if v.isTrue then i + 1 else 0 : Nat))
    (.inr (.inl rfl)) (fun i low => takes_count (by split <;> omega)) s
  refine ⟨_, Eq.trans ?_ made, fun i low => ?_⟩
  · have single : barssince n v = if v.isTrue then SeriesRef.ofValues ((range n).map fun (i : Nat) => .int (i + 1))
        else SeriesRef.replicate n (.int 0) := by
      cases v with
      | series r => cases number
      | _ => rfl
    rw [single, SeriesRef.replicate]
    split <;> simp
  · rw [show (s.alloc col _ _).2.column ⟨s.series.size⟩ = col from Store.column_alloc s .., entries i low]
    rfl

theorem barsAfter_const (t : Bool) (k : Nat) : barsAfter (fun _ => t) (k + 1) = if t then 0 else k + 1 := by
  cases t with
  | true => exact barsAfter_succ ..
  | false =>
    rw [barsAfter, marks, filter_false]
    rfl

theorem blank_entries (present : r.id < s.series.size) (numbers : s.Typed n .float r) :
    ∃ s', outcome r.blank s = (.ok ⟨s.series.size⟩, s') ∧ s'.valid ⟨s.series.size⟩ = s.valid r ∧
      ∀ i < n, (s'.column ⟨s.series.size⟩).get (i : Int) = .ok (.cell (.float notANumber)) := by
  obtain ⟨col, made, entries⟩ := SeriesRef.ofRange_entries (n := n) (k := .float) (f := fun _ => .float notANumber)
    (.inr (.inr rfl)) (fun _ _ => ⟨rfl, rfl⟩) s
  rw [map_const', length_range] at made
  have defaults : outcome r.default s = (.ok (.float notANumber), s) := by
    rw [SeriesRef.outcome_default, numbers.kind]
    rfl
  refine ⟨(s.alloc col (s.valid r) .plain).2, ?_, by rw [Store.valid, Store.head_alloc], fun i low => ?_⟩
  · rw [SeriesRef.blank, bind_ok (SeriesRef.outcome_size r s), numbers.size, bind_ok defaults,
      SeriesRef.replicate, bind_ok made,
      bind_ok (SeriesRef.outcome_valid r _), Store.valid, (Store.alloc_grows ..).head_eq present,
      bind_ok (SeriesRef.outcome_setValid ..), Store.setValid_alloc]
    rfl
  · rw [show (s.alloc col _ _).2.column ⟨s.series.size⟩ = col from Store.column_alloc s .., entries i low]
    rfl

/-- A number, or a truth value, against the series that has it at all `n` bars. With it `barssince` counts the same
    bars just if it is not a number: else it counts where it should not. With one that counts as true `valuewhen` fails;
    with another one it gives the same entries. -/
theorem constant_conditions {c s : SeriesRef} {n : Nat} {b : Value} {t : Bool}
    (straight : m.store.Straight) (present : c.id < m.store.series.size) (bars : m.size = n) (short : n < 2 ^ 63)
    (number : b.holds? = some t) (constant : ∀ i : Nat, i < n → (m.store.column c).get i = .ok b.asCell)
    (validC : m.store.valid c = (n : Int) - 1) (presentS : s.id < m.store.series.size) (numbers : m.store.Typed n .float s)
    (validS : -1 ≤ m.store.valid s ∧ m.store.valid s < n) (k : Nat) :
    (∃ r m₁ r' m₂, outcome (apply .barssince [b] []) m = (.ok (.series r), m₁) ∧
      outcome (apply .barssince [.series c] []) m = (.ok (.series r'), m₂) ∧
      ∀ i : Nat, i < n → ((m₁.store.column r).get i = (m₂.store.column r').get i ↔ b.isTrue ∧ t = false)) ∧
    ∃ q m₃, outcome (apply .valuewhen [.series c, .series s, .int k] []) m = (.ok (.series q), m₃) ∧
      if b.isTrue then outcome (apply .valuewhen [b, .series s, .int k] []) m = (.error .member, m)
      else ∃ q' m₄, outcome (apply .valuewhen [b, .series s, .int k] []) m = (.ok (.series q'), m₄) ∧
        m₄.store.valid q' = m₃.store.valid q ∧
        ∀ i : Nat, i < n → (m₄.store.column q').get i = (m₃.store.column q).get i := by
  subst bars
  have given : b ≠ .absent := by
    rintro rfl
    cases number
  have tells : m.store.Tells m.size (fun _ => t) c := by
    intro i low
    rw [constant i low]
    cases b with
    | bool | int | float | cell => exact ⟨_, rfl, number⟩
    | _ => cases number
  have weaker (holds : t = true) : b.isTrue := Value.isTrue_of_holds (holds ▸ number)
  constructor
  · obtain ⟨s₁, one, ones⟩ := barssince_number (s := m.store) number short
    obtain ⟨_, s₂, all, counts⟩ := barssince_entries straight present short tells validC (Nat.le_refl _)
    refine ⟨_, _, _, _, (apply_barssince given m).trans (outcome_series one),
      (apply_barssince (by simp) m).trans (outcome_series all), fun i low => ?_⟩
    rw [ones i low, counts i low, barsAfter_const]
    simp only [Except.ok.injEq, Value.cell.injEq, Cell.int.injEq, true_and, Int.ofNat_inj]
    cases t with
    | true => simp [weaker rfl]
    | false => cases b.isTrue <;> simp
  · obtain ⟨s₃, found, valid, entries⟩ := valuewhen_entries (l := (m.store.valid s + 1).toNat) tells
      (.inr (.inr rfl)) numbers rfl (by omega) (by omega) k
    refine ⟨_, _, (apply_valuewhen (by simp) s k m).trans (outcome_series found), ?_⟩
    have single : valuewhen m.size b s k = if b.isTrue then throw .member else s.blank := by
      cases b with
      | series r => cases number
      | _ => rfl
    rw [apply_valuewhen given, single]
    split
    next => exact bind_error (by rw [outcome_onStore]; rfl)
    next fails =>
      have never (i : Nat) : recent (fun _ => t) k i = none := by
        cases t with
        | true => exact (fails (weaker rfl)).elim
        | false => simp [recent, marks]
      obtain ⟨s₄, blanked, valid', blanks⟩ := blank_entries presentS numbers
      refine ⟨_, _, outcome_series blanked, valid'.trans ?_, fun i low => ?_⟩
      · exact Eq.trans (by omega) valid.symm
      · rw [blanks i low, entries i low, never]
        split <;> rfl

/-- A machine with a series that is the same truth value at both bars, and one of prices. -/
def constantly (b : Bool) : Machine :=
  let conditions := (({} : Store).alloc ⟨.bools #[b, b], none⟩ 1 .plain).2
  { new .plain (.flat [1.0, 2.0]) with store := (conditions.alloc ⟨.floats #[1.0, 2.0], none⟩ 1 .plain).2 }

theorem constantly_straight (b : Bool) : (constantly b).store.Straight :=
  Store.Straight.alloc (Store.Straight.alloc ⟨rfl, by simp⟩ ..) ..

theorem constant_conditions_false : ∃ q m₃ q' m₄,
    outcome (apply .valuewhen [.series ⟨0⟩, .series ⟨1⟩, .int 3] []) (constantly false) = (.ok (.series q), m₃) ∧
    outcome (apply .valuewhen [.bool false, .series ⟨1⟩, .int 3] []) (constantly false) = (.ok (.series q'), m₄) ∧
    (m₄.store.column q').get 1 = (m₃.store.column q).get 1 := by
  have typed : (constantly false).store.Typed 2 .float ⟨1⟩ :=
    ⟨rfl, rfl, fun i low => by interval_cases i <;> exact ⟨_, rfl, rfl⟩⟩
  obtain ⟨_, q, m₃, found, q', m₄, single, _, same⟩ := constant_conditions (c := ⟨0⟩) (s := ⟨1⟩) (b := .bool false)
    (n := 2) (constantly_straight false) (by decide) rfl (by decide) rfl (fun i low => by interval_cases i <;> rfl) rfl
    (by decide) typed (by decide) 3
  exact ⟨q, m₃, q', m₄, found, single, same 1 (by decide)⟩

/-- A condition that is always true held at each bar, but as a truth value it is counted from the start. -/
theorem constant_condition_miscounts : ∃ r m₁ r' m₂,
    outcome (apply .barssince [.bool true] []) (constantly true) = (.ok (.series r), m₁) ∧
    outcome (apply .barssince [.series ⟨0⟩] []) (constantly true) = (.ok (.series r'), m₂) ∧
    (m₁.store.column r).get 0 = .ok (.cell (.int .long 1)) ∧ (m₂.store.column r').get 0 = .ok (.cell (.int .long 0)) := by
  obtain ⟨s₁, one, ones⟩ := barssince_number (v := .bool true) (s := (constantly true).store) (n := 2) rfl (by decide)
  have tells : (constantly true).store.Tells 2 (fun _ => true) ⟨0⟩ := by
    intro i low
    interval_cases i <;> exact ⟨_, rfl, rfl⟩
  obtain ⟨_, s₂, all, counts⟩ := barssince_entries (l := 2) (constantly_straight true) (by decide) (by decide) tells rfl
    (by decide)
  exact ⟨_, _, _, _, (apply_barssince (by simp) _).trans (outcome_series one),
    (apply_barssince (by simp) _).trans (outcome_series all), ones 0 (by decide), counts 0 (by decide)⟩

end Machine

end PineEngine
