import Mathlib
import PineEngine.Proofs.Crossings

/-! # Pivots

A pivot is an entry of a series of numbers that no entry around it beats; it is shown `right` bars later, when the bars
after it are known. `pivothigh` and `pivotlow` do not look at the last one of these bars, so they also show entries that
only this bar beats (`pivots_found`). Without bars after it, they do not look at the entry itself.

Doubles that are numbers are in a total order, which `rank` makes explicit.
-/

namespace PineEngine

open List

/-- A column of `n` doubles. -/
def Column.doubles (n : Nat) (x : Nat → Float) : Column :=
  ⟨.floats ((range n).map x).toArray, none⟩

namespace Decimal

open Float.Model Float.Model.UnpackedFloat

variable {x y z : Float} {u w : UnpackedFloat} {larger : Bool}

def side : Sign → Int
  | .positive => 1
  | .negative => -1

/-- The place of a number among all numbers: its side of zero, and how far it lies on that side. -/
def rank : UnpackedFloat → ℤ ×ₗ ℤ ×ₗ ℤ
  | .notANumber => toLex (3, toLex (0, 0))
  | .infinity s => toLex (2 * side s, toLex (0, 0))
  | .zero _ => toLex (0, toLex (0, 0))
  | .finite s m e _ => toLex (side s, toLex (side s * e, side s * m))

theorem compare_rank (number : u.isNaN = false) (number' : w.isNaN = false) :
    (u.compare w = some .lt ↔ rank u < rank w) ∧ (u.compare w = some .eq ↔ rank u = rank w) := by
  cases u with
  | notANumber => cases number
  | infinity s | zero s | finite s m e p =>
    cases w with
    | notANumber => cases number'
    | infinity s' | zero s' | finite s' m' e' p' =>
      cases s <;> cases s' <;> first
        | decide
        | simp [UnpackedFloat.compare, rank, side, Prod.Lex.toLex_lt_toLex, Ordering.then_eq_lt, Ordering.then_eq_eq,
            Ordering.then_eq_gt, compare_lt_iff_lt, compare_gt_iff_gt, Nat.cast_inj]

variable (number : x.isNaN = false) (number' : y.isNaN = false)

include number number'

theorem lt_iff_rank : x < y ↔ rank x.toModel.unpack < rank y.toModel.unpack :=
  lt_iff.trans (compare_rank number number').1

/-- Whether a number is better than another one: larger, or smaller. -/
def beats (larger : Bool) (x y : Float) : Bool :=
  (if larger then CompareOp.gt else .lt).floats x y

theorem beq_iff_beats (larger : Bool) : x == y ↔ ¬ beats larger x y ∧ ¬ beats larger y x := by
  have equal : x == y ↔ rank x.toModel.unpack = rank y.toModel.unpack :=
    (beq_iff_eq (α := Option Ordering)).trans (compare_rank number number').2
  rw [equal, le_antisymm_iff]
  cases larger <;>
    simp [beats, CompareOp.floats, lt_iff_rank number number', lt_iff_rank number' number, and_comm]

theorem not_beats_trans (number'' : z.isNaN = false)
    (first : ¬ beats larger x y) (second : ¬ beats larger y z) : ¬ beats larger x z := by
  cases larger with
  | false =>
    simp only [beats, CompareOp.floats, Bool.false_eq_true, if_false, decide_eq_true_iff] at first second ⊢
    rw [lt_iff_rank number number', not_lt] at first
    rw [lt_iff_rank number' number'', not_lt] at second
    rw [lt_iff_rank number number'', not_lt]
    exact second.trans first
  | true =>
    simp only [beats, CompareOp.floats, if_true, decide_eq_true_iff] at first second ⊢
    rw [lt_iff_rank number' number, not_lt] at first
    rw [lt_iff_rank number'' number', not_lt] at second
    rw [lt_iff_rank number'' number, not_lt]
    exact first.trans second

theorem not_beats_total : ¬ beats larger x y ∨ ¬ beats larger y x := by
  cases larger <;>
    simp [beats, CompareOp.floats, lt_iff_rank number number', lt_iff_rank number' number, le_total]

end Decimal

namespace Indicator

open PineEngine.Computation Decimal

variable {larger : Bool} {x : Float} {ws : List Float} {f : Nat → Value}

def cellOf (x : Float) : Value :=
  .cell (.float x)

theorem extremeOf_next {y : Float} (number : x.isNaN = false) (number' : y.isNaN = false) :
    extremeOf larger ((x :: y :: ws).map cellOf) =
      extremeOf larger (((if beats larger y x then y else x) :: ws).map cellOf) := by
  have step : (do
      let better ← Value.compare (if larger then .gt else .lt) (cellOf y) (cellOf x)
      pure (if better.isTrue then cellOf y else cellOf x) : Except Fault Value) = .ok (cellOf (if beats larger y x then y else x)) := by
    show Except.ok (if beats larger y x then cellOf y else cellOf x) = _
    split <;> rfl
  simp only [map_cons, cellOf, extremeOf, foldlM_cons, number, number'] at step ⊢
  simp only [Bool.not_false, Bool.not_true, Bool.false_eq_true, if_false, step, ok_bind]

/-- The best one of some numbers is found. -/
theorem extremeOf_cells (larger : Bool) (numbers : ∀ w ∈ x :: ws, w.isNaN = false) : ∃ best ∈ x :: ws,
    extremeOf larger ((x :: ws).map cellOf) = .ok (cellOf best) ∧ ∀ w ∈ x :: ws, ¬ beats larger w best := by
  have self {x : Float} (number : x.isNaN = false) : ¬ beats larger x x := (not_beats_total number number).elim id id
  induction ws generalizing x with
  | nil => exact ⟨x, .head _, rfl, forall_mem_singleton.mpr (self (numbers x (.head _)))⟩
  | cons y ws ih =>
    have left := numbers x (.head _)
    have right := numbers y (.tail _ (.head _))
    obtain ⟨w, winner⟩ : ∃ w, (if beats larger y x then y else x) = w := ⟨_, rfl⟩
    have better : (w = x ∨ w = y) ∧ ¬ beats larger x w ∧ ¬ beats larger y w := by
      rw [← winner]
      split
      next less => exact ⟨.inr rfl, (not_beats_total left right).resolve_right (not_not_intro less), self right⟩
      next least => exact ⟨.inl rfl, self left, least⟩
    have number : w.isNaN = false := by obtain rfl | rfl := better.1 <;> assumption
    obtain ⟨best, among, found, tops⟩ := ih (forall_mem_cons.mpr ⟨number, fun v mem => numbers v (.tail _ (.tail _ mem))⟩)
    have among' : best ∈ x :: y :: ws := by
      obtain rfl | rfl := better.1 <;> simp only [mem_cons] at among ⊢ <;> tauto
    refine ⟨best, among', by rw [extremeOf_next left right, winner, found], ?_⟩
    have chain {v : Float} (number' : v.isNaN = false) (less : ¬ beats larger v w) : ¬ beats larger v best :=
      not_beats_trans number' number (numbers best among') less (tops w (.head _))
    exact forall_mem_cons.mpr ⟨chain left better.2.1,
      forall_mem_cons.mpr ⟨chain right better.2.2, fun v mem => tops v (.tail _ mem)⟩⟩

theorem extremeOf_window (larger : Bool) {v : Float} (numbers : ∀ w ∈ ws, w.isNaN = false) (number : v.isNaN = false)
    (some : ws ≠ []) : ∃ best, extremeOf larger (ws.map cellOf) = .ok (cellOf best) ∧
      (v == best) = (ws.all (!beats larger · v) && ws.any (· == v)) := by
  obtain ⟨x, ws, rfl⟩ := exists_cons_of_ne_nil some
  obtain ⟨best, among, found, tops⟩ := extremeOf_cells larger numbers
  refine ⟨best, found, Bool.eq_iff_iff.mpr ((beq_iff_beats number (numbers best among) larger).trans ?_)⟩
  simp only [Bool.and_eq_true, all_eq_true, Bool.not_eq_true', any_eq_true, ← Bool.not_eq_true]
  refine ⟨fun same => ⟨fun w mem => ?_, best, among, ?_⟩, ?_⟩
  · exact not_beats_trans (numbers w mem) (numbers best among) number (tops w mem) same.2
  · exact (beq_iff_beats (numbers best among) number larger).mpr same.symm
  · rintro ⟨least, w, mem, same⟩
    have same := (beq_iff_beats (numbers w mem) number larger).mp same
    exact ⟨not_beats_trans number (numbers w mem) (numbers best among) same.2 (tops w mem), least best among⟩

variable {n left right j : Nat} {x : Nat → Float} {s : Store} {r : SeriesRef}

theorem holds_doubles (n : Nat) (x : Nat → Float) :
    Column.Holds .float ((range n).map (cellOf <| x ·)) (.doubles n x) :=
  ⟨rfl, rfl, map_map⟩

theorem columnOfCells_doubles {x : Nat → Float} (cells : ∀ i < n, Cells.floatCell (f i) = .ok (x i)) :
    columnOfCells .float none ((range n).map f) = .ok (.doubles n x) := by
  have cells : ((range n).map f).mapM Cells.floatCell = .ok ((range n).map x) :=
    mapM_map_ok fun i low => cells i (mem_range.mp low)
  rw [columnOfCells, Cells.ofValuesAs, cells]
  rfl

theorem outcome_doubles (cells : ∀ i < n, f i = .float (x i) ∨ f i = cellOf (x i)) (s : Store) :
    outcome (SeriesRef.ofValues ((range n).map f)) s =
      (.ok ⟨s.series.size⟩, (s.alloc (.doubles n x) ((n : Int) - 1) .plain).2) := by
  have all (P : Value → Prop) (plain : ∀ z, P (.float z)) (cell : ∀ z, P (cellOf z)) : ∀ v ∈ (range n).map f, P v := by
    refine forall_mem_map.mpr fun i low => ?_
    obtain same | same := cells i (mem_range.mp low)
    · exact same ▸ plain _
    · exact same ▸ cell _
  have made : Column.ofValues ((range n).map f) = .ok (.doubles n x) := by
    rw [Column.ofValues_singles (all _ (fun _ => rfl) fun _ => rfl)]
    obtain rfl | some := Nat.eq_zero_or_pos n
    · rfl
    · rw [Column.kindOf_uniform (ne_nil_of_length_pos (by simpa)) (all _ (fun _ => rfl) fun _ => rfl)]
      refine columnOfCells_doubles fun i low => ?_
      obtain same | same := cells i low <;> rw [same] <;> rfl
  simpa using SeriesRef.outcome_ofValues (fun q mem => all (· ≠ .series q) nofun nofun _ mem rfl) made s

/-- Whether no one of `k` entries, from a first one on, is better than a number. -/
def tops (larger : Bool) (x : Nat → Float) (first k : Nat) (v : Float) : Bool :=
  (range' first k).all fun i => !beats larger (x i) v

def meets (x : Nat → Float) (first k : Nat) (v : Float) : Bool :=
  (range' first k).any (x · == v)

/-- Whether a pivot is shown at a bar: no one of the bars before it in the neighbourhood is better, and one is equal. -/
def isPivot (larger : Bool) (x : Nat → Float) (left right j : Nat) : Bool :=
  tops larger x (j - left - right) (left + right) (x (j - right)) && meets x (j - left - right) (left + right) (x (j - right))

def shown (x : Nat → Float) (left right j : Nat) (pivot : Bool) : Float :=
  if left + right ≤ j && pivot then x (j - right) else notANumber

theorem peak_doubles (larger : Bool) (numbers : ∀ i < n, (x i).isNaN = false) (wide : 0 < left + right)
    (inside : left + j + right < n) : peak larger (.doubles n x) left right (left + j : Nat) =
      .ok (if isPivot larger x left right (left + j + right) then cellOf (x (left + j)) else .float notANumber) := by
  have holds := holds_doubles n x
  have window : slice (Column.doubles n x).toList ((left + j : Nat) - (left : Int)) ((left + j : Nat) + (right : Int)) =
      ((range' j (left + right)).map x).map cellOf := by
    rw [holds.entries, show ((left + j : Nat) : Int) - left = j by omega,
      show ((left + j : Nat) : Int) + right = (left + j + right : Nat) by omega, slice_range _ (by omega), map_map,
      show left + j + right - j = left + right by omega]
    rfl
  have got : (Column.doubles n x).get (left + j : Nat) = .ok (cellOf (x (left + j))) :=
    holds.get (by rw [getElem?_map, getElem?_range (by omega)]; rfl)
  have numbers' : ∀ w ∈ (range' j (left + right)).map x, w.isNaN = false :=
    forall_mem_map.mpr fun i mem => numbers i (by rw [mem_range'_1] at mem; omega)
  obtain ⟨best, extreme, same⟩ := extremeOf_window larger numbers' (numbers (left + j) (by omega)) (by simp; omega)
  have pivot : isPivot larger x left right (left + j + right) = (x (left + j) == best) := by
    rw [same, isPivot, tops, meets, show left + j + right - left - right = j by omega, Nat.add_sub_cancel, all_map,
      any_map]
    rfl
  rw [peak, got, ok_bind, window, extreme, ok_bind, pivot]
  rfl

/-- An entry of the result before it is stored. -/
def pivotEntry (larger : Bool) (x : Nat → Float) (left right j : Nat) : Value :=
  if left + right ≤ j && isPivot larger x left right j then cellOf (x (j - right)) else .float notANumber

theorem outcome_pivot (larger : Bool) (left right : Nat) (column : s.column r = .doubles n x)
    (numbers : ∀ i < n, (x i).isNaN = false) (wide : 0 < left + right) :
    outcome (pivot larger r left right) s = (.ok ⟨s.series.size⟩,
      (s.alloc (.doubles n fun j => shown x left right j (isPivot larger x left right j)) ((n : Int) - 1) .plain).2) := by
  have early (j : Nat) (low : j < left + right) : pivotEntry larger x left right j = .float notANumber := by
    rw [pivotEntry, if_neg (by simp; omega)]
  have length : (Column.doubles n x).length = n := by simpa using (holds_doubles n x).length
  have cells (j : Nat) (_ : j < n) : pivotEntry larger x left right j = .float (shown x left right j (isPivot larger x left right j)) ∨
      pivotEntry larger x left right j = cellOf (shown x left right j (isPivot larger x left right j)) := by
    rw [pivotEntry, shown]
    split
    · exact .inr rfl
    · exact .inl rfl
  rw [← outcome_doubles cells s, pivot, bind_ok (SeriesRef.outcome_column r s), column]
  dsimp only
  rw [length]
  split
  next narrow =>
    rw [SeriesRef.replicate, map_congr_left fun j mem => early j (by rw [mem_range] at mem; omega), map_const',
      length_range]
  next large =>
    have peaks : (centres n left right).mapM (peak larger (.doubles n x) left right) =
        .ok ((range' (left + right) (n - (left + right))).map (pivotEntry larger x left right)) := by
      rw [centres, show ((n : Int) - right - left).toNat = n - (left + right) by omega, range'_eq_map_range, map_map]
      refine mapM_map_ok fun j mem => ?_
      rw [mem_range] at mem
      rw [show (left : Int) + j = (left + j : Nat) by omega, peak_doubles larger numbers wide (by omega), Function.comp_apply,
        pivotEntry, Nat.add_right_comm left right j, Nat.add_sub_cancel, decide_eq_true (by omega), Bool.true_and]
    have gaps : (range' 0 (left + right)).map (pivotEntry larger x left right) =
        replicate (left + right) (.float notANumber) := by
      rw [map_congr_left fun j mem => early j (by rw [mem_range'_1] at mem; omega), map_const', length_range']
    refine (bind_ok ((outcome_mapM_reading (outcome_peak larger _ left right · s) _).trans (by rw [← centres, peaks]))).trans ?_
    rw [show ((left : Int) + right).toNat = left + right by omega, ← gaps, ← map_append, range_split (by omega)]

theorem shown_inj {p q : Bool} (number : (x (j - right)).isNaN = false) :
    shown x left right j p = shown x left right j q ↔ (left + right ≤ j → p = q) := by
  have other : x (j - right) ≠ notANumber := fun same => by
    rw [same] at number
    exact absurd number (by decide)
  rw [shown, shown]
  by_cases late : left + right ≤ j
  · cases p <;> cases q <;> simp [late, other, other.symm]
  · simp [late]

theorem tops_succ (larger : Bool) (x : Nat → Float) (first k : Nat) (v : Float) :
    tops larger x first (k + 1) v = (tops larger x first k v && !beats larger (x (first + k)) v) := by
  rw [tops, range'_1_concat, all_append]
  simp [tops]

theorem isPivot_iff (numbers : ∀ i < n, (x i).isNaN = false) (low : j < n) (late : left + right ≤ j) :
    isPivot larger x left right j = tops larger x (j - left - right) (left + right + 1) (x (j - right)) ↔
      (tops larger x (j - left - right) (left + right) (x (j - right)) → if right = 0
        then meets x (j - left) left (x j) else !beats larger (x j) (x (j - right))) := by
  have self {i : Nat} (low : i < n) : beats larger (x i) (x i) = false :=
    Bool.eq_false_iff.mpr ((not_beats_total (numbers i low) (numbers i low)).elim id id)
  rw [tops_succ, isPivot, show j - left - right + (left + right) = j by omega]
  cases tops larger x (j - left - right) (left + right) (x (j - right)) with
  | false => simp
  | true =>
    split
    next none =>
      subst none
      simp [self low]
    next some =>
      have same : meets x (j - left - right) (left + right) (x (j - right)) := by
        refine any_eq_true.mpr ⟨j - right, mem_range'_1.mpr (by omega), ?_⟩
        have number := numbers (j - right) (by omega)
        exact (beq_iff_beats number number larger).mpr (by simp [self (show j - right < n by omega)])
      simp [same]

end Indicator

namespace Machine

open Indicator Decimal PineEngine.Computation

theorem apply_pivot (larger : Bool) (m : Machine) (r : SeriesRef) (left right : Int) :
    outcome (apply (if larger then .pivothigh else .pivotlow) [.series r, .int left, .int right] []) m =
      outcome (do pure (.series (← onStore (Indicator.pivot larger r left right)))) m := by
  cases larger <;> rfl

variable {m : Machine} {r : SeriesRef} {n : Nat} {x : Nat → Float}

/-- A pivot of a series of `n` numbers is shown at a bar if no one of the `left + right` bars before this bar is better, and
    one is equal. So it is shown where it should be, unless this bar is better, or no bar is looked at after the pivot and
    it is better than all before it. -/
theorem pivots_found (larger : Bool) (left right : Nat) (column : m.store.column r = .doubles n x)
    (numbers : ∀ i < n, (x i).isNaN = false) (wide : 0 < left + right) :
    Returns m (apply (if larger then .pivothigh else .pivotlow) [.series r, .int left, .int right] [])
      (.doubles n fun j => shown x left right j (isPivot larger x left right j)) ((n : Int) - 1) ∧
    ∀ j < n, shown x left right j (isPivot larger x left right j) =
        shown x left right j (tops larger x (j - left - right) (left + right + 1) (x (j - right))) ↔
      (left + right ≤ j → tops larger x (j - left - right) (left + right) (x (j - right)) → if right = 0
        then meets x (j - left) left (x j) else !beats larger (x j) (x (j - right))) := by
  refine ⟨⟨_, _, (apply_pivot ..).trans (outcome_series (outcome_pivot larger left right column numbers wide)),
    Store.column_alloc .., by rw [Store.valid, Store.head_alloc]⟩, fun j low => ?_⟩
  exact (shown_inj (numbers (j - right) (by omega))).trans (forall_congr' fun late => isPivot_iff numbers low late)

/-- A machine with a series that rises. -/
def rising : Machine :=
  { new .plain (.flat [1.0, 2.0, 3.0]) with store := (({} : Store).alloc (.doubles 3 ([1.0, 2.0, 3.0].getD · 0.0)) 2 .plain).2 }

theorem rising_numbers (i : Nat) (low : i < 3) : ([1.0, 2.0, 3.0].getD i (0.0 : Float)).isNaN = false := by
  interval_cases i <;> decide +kernel

theorem pivots_found_rising : ∃ f, Returns rising (apply .pivotlow [.series ⟨0⟩, .int 0, .int 1] []) (.doubles 3 f) 2 ∧
    f 1 = 1.0 ∧ f 2 = 2.0 :=
  ⟨_, (pivots_found false 0 1 rfl rising_numbers (by decide)).1, rfl, rfl⟩

/-- A larger number at the bar itself is not seen. -/
theorem pivot_before_rise : ∃ f, Returns rising (apply .pivothigh [.series ⟨0⟩, .int 1, .int 1] []) (.doubles 3 f) 2 ∧
    f 2 = 2.0 ∧ beats true 3.0 2.0 :=
  ⟨_, ⟨_, _, (apply_pivot true rising ⟨0⟩ 1 1).trans (outcome_series (outcome_pivot true 1 1 rfl rising_numbers (by decide))),
    Store.column_alloc .., rfl⟩, rfl, by decide +kernel⟩

end Machine

end PineEngine
