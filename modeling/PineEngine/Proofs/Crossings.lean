import PineEngine.Proofs.Folding
import PineEngine.Proofs.Occurrences

/-! # Crossings of two series

`crossover` and `crossunder` mark the bars at which one series comes to be above or below another one, and `cross` tests
the sign of a product. For whole numbers that are too small to overflow, `cross` marks what one of the other two marks
(`crossings_marked`).
-/

namespace PineEngine

open Computation Store SeriesRef List Column

namespace Column

variable {n i : Nat} {a : Nat → Int} {p q : Nat → Bool}

def longs (n : Nat) (a : Nat → Int) : Column :=
  ⟨.ints .long ((range n).map a).toArray, none⟩

/-- Marks at `n` bars, as whole numbers. -/
def marks (n : Nat) (p : Nat → Bool) : Column :=
  longs n fun i => if p i then 1 else 0

theorem holds_longs (n : Nat) (a : Nat → Int) :
    Holds (.int .long) ((range n).map fun i => .cell (.int .long (a i))) (longs n a) :=
  ⟨rfl, rfl, map_map⟩

theorem get_longs (low : i < n) : (longs n a).get i = .ok (.cell (.int .long (a i))) :=
  (holds_longs n a).get (by rw [getElem?_map, getElem?_range low]; rfl)

theorem marks_congr (same : ∀ i < n, p i = q i) : marks n p = marks n q := by
  rw [marks, longs, map_congr_left fun i low => by rw [same i (mem_range.mp low)]]
  rfl

theorem set_marks (low : i < n) (b : Bool) : (marks n p).set i (.cell (.bool b)) = .ok (marks n (Function.update p i b)) := by
  have length : (marks n p).length = n := by simpa [marks] using (holds_longs n _).length
  have entries : ((range n).map fun j => if p j then (1 : Int) else 0).toArray.setIfInBounds i (if b then 1 else 0) =
      ((range n).map fun j => if Function.update p i b j then 1 else 0).toArray := by
    rw [setIfInBounds_toArray]
    refine congrArg _ (ext_getElem (by simp) fun j _ _ => ?_)
    rw [getElem_set]
    split
    next same => simp [← same]
    next other => simp [Function.update_of_ne (Ne.symm other)]
  rw [set, length, position?_natCast.mpr ⟨rfl, low⟩]
  cases b <;> exact congrArg (fun xs => Except.ok (mk (.ints .long xs) none)) entries

end Column

namespace Indicator

variable {n last : Nat} {s : Store} {r q : SeriesRef} {test : (now before : Value × Value) → Except Fault Value}
  {found : Nat → Bool} {x y : Column}

theorem uncrossed_marks (some : 0 < n) : uncrossed n = .ok (.marks n fun _ => false) := by
  have zeros : Column.ofValues (replicate n (.int 0)) = .ok (.marks n fun _ => false) := by
    obtain ⟨k, rfl⟩ := Nat.exists_eq_add_of_lt some
    rw [Nat.zero_add, ofValues_zeros, ← length_range (n := k + 1), ← map_const']
    simp [Column.marks, Column.longs]
  rw [uncrossed, zeros]
  exact (set_marks some false).trans (congrArg _ (marks_congr fun i _ => by simp [Function.update_apply]))

theorem marked_eq (some : 0 < n) (le : last ≤ n) (never : found 0 = false)
    (tested : ∀ i, 0 < i → i < last → testAt test x y i = .ok (.cell (.bool (found i)))) :
    marked n last test x y = .ok (.marks n fun i => i < last && found i) := by
  have run (k : Nat) (few : k ≤ last - 1) : (range' 1 k).foldlM (fun (found : Column) (i : Nat) => do
        found.set i (← testAt test x y i)) (.marks n fun _ => false) = .ok (.marks n fun i => i < 1 + k && found i) := by
    induction k with
    | zero => exact congrArg Except.ok (marks_congr fun i _ => by cases i <;> simp [never])
    | succ k ih =>
      rw [range'_1_concat, foldlM_append, ih (by omega), ok_bind, foldlM_cons, tested _ (by omega) (by omega),
        ok_bind, set_marks (by omega)]
      refine congrArg Except.ok (marks_congr fun i _ => ?_)
      by_cases same : i = 1 + k
      · simp [same]
      · rw [Function.update_of_ne same, decide_eq_decide.mpr (show i < 1 + k ↔ i < 1 + (k + 1) by omega)]
  rw [marked, uncrossed_marks some, ok_bind, run (last - 1) (Nat.le_refl _)]
  refine congrArg Except.ok (marks_congr fun i _ => ?_)
  cases i with
  | zero => simp [never]
  | succ i => rw [decide_eq_decide.mpr (show i + 1 < 1 + (last - 1) ↔ i + 1 < last by omega)]

/-- Whether the first of two sequences of numbers comes to be above the second one. -/
def rises (a b : Nat → Int) (i : Nat) : Bool :=
  0 < i && b i < a i && a (i - 1) < b (i - 1)

def longPair (a b : Int) : Value × Value :=
  (.cell (.int .long a), .cell (.int .long b))

variable {a b a' b' : Int}

theorem turnTest_longs (opNow opBefore : CompareOp) : turnTest opNow opBefore (longPair a b) (longPair a' b') =
    .ok (.cell (.bool (opNow.decideOrder (compare a b) && opBefore.decideOrder (compare a' b')))) := by
  show (if (Value.cell (.bool (opNow.decideOrder (compare a b)))).isTrue
    then Except.ok (Value.cell (.bool (opBefore.decideOrder (compare a' b')))) else Except.ok _) = _
  cases found : opNow.decideOrder (compare a b) <;> rfl

theorem arith_long {op : ArithOp} {c : Int} (plain : (op, c) = (.sub, a - b) ∨ (op, c) = (.mul, a * b))
    (small : a.natAbs ≤ 2 ^ 31) (small' : b.natAbs ≤ 2 ^ 31) :
    Value.arith op (.cell (.int .long a)) (.cell (.int .long b)) = .ok (.cell (.int .long c)) := by
  have inside {n : Int} (small : n.natAbs ≤ 2 ^ 62) : Width.long.holds n := (Machine.holds_long n).mpr (by omega)
  have machine {a : Int} (small : a.natAbs ≤ 2 ^ 31) : Cell.machineInt .long (.cell (.int .long a)) = .ok a :=
    if_pos (inside (by omega))
  have product : (a * b).natAbs ≤ 2 ^ 62 := by
    rw [Int.natAbs_mul]
    exact (Nat.mul_le_mul small small').trans (by norm_num)
  show (Cell.arith op (.int .long) (.cell (.int .long a)) (.cell (.int .long b))).map Value.cell = _
  obtain ⟨rfl, rfl⟩ | ⟨rfl, rfl⟩ := plain <;> simp only [Cell.arith, machine small, machine small', ok_bind, Cell.ints]
  · rw [Machine.wrap_long (inside (by omega))]
    rfl
  · rw [Machine.wrap_long (inside product)]
    rfl

theorem crossTest_longs (small : a.natAbs ≤ 2 ^ 30 ∧ b.natAbs ≤ 2 ^ 30) (small' : a'.natAbs ≤ 2 ^ 30 ∧ b'.natAbs ≤ 2 ^ 30) :
    crossTest (longPair a b) (longPair a' b') = .ok (.cell (.bool (b < a && a' < b' || a < b && b' < a'))) := by
  have sign : decide ((a - b) * (a' - b') < 0) = (b < a && a' < b' || a < b && b' < a') := by
    simp [mul_neg_iff]
  rw [crossTest, longPair, longPair, arith_long (.inl rfl) (by omega) (by omega), ok_bind,
    arith_long (.inl rfl) (by omega) (by omega), ok_bind, arith_long (.inr rfl) (by omega) (by omega), ok_bind, ← sign]
  exact congrArg (Except.ok <| Value.cell <| Cell.bool ·) (Value.decideOrder_ints .lt ((a - b) * (a' - b')) 0)

theorem testAt_longs {a b : Nat → Int} {i : Nat} (first : 0 < i) (low : i < n) :
    testAt test (.longs n a) (.longs n b) i = test (longPair (a i) (b i)) (longPair (a (i - 1)) (b (i - 1))) := by
  rw [testAt, show (i : Int) - 1 = (i - 1 : Nat) by omega, get_longs low, get_longs low,
    get_longs (by omega), get_longs (by omega)]
  rfl

end Indicator

namespace Machine

open Indicator

variable {m : Machine} {x y : SeriesRef} {n : Nat} {v : Int} {a b : Nat → Int}
  {test : (now before : Value × Value) → Except Fault Value} {fn : Builtin.Function}

/-- What a call returns: a series with a column, and up to where it is valid. -/
def Returns (m : Machine) (call : MachineM Value) (c : Column) (v : Int) : Prop :=
  ∃ r m', outcome call m = (.ok (.series r), m') ∧ m'.store.column r = c ∧ m'.store.valid r = v

/-- The marks that a function sets for two series, up to a bar. -/
def Marks (m : Machine) (fn : Builtin.Function) (x y : SeriesRef) (v : Int) (found : Nat → Bool) : Prop :=
  Returns m (apply fn [.series x, .series y] []) (.marks m.size fun i => (i : Int) ≤ v && found i) (max 0 v)

theorem apply_crossing
    (mem : (fn, test) ∈ [(.cross, crossTest), (.crossover, turnTest .gt .lt), (.crossunder, turnTest .lt .gt)])
    (m : Machine) (x y : SeriesRef) : outcome (apply fn [.series x, .series y] []) m =
        outcome (do pure (.series (← onStore (crossing m.size x (.series y) test)))) m ∧
      ∀ {now before u}, test now before = .ok u → u.isSingle := by
  have bound : outcome (Machine.bind Builtin.Function.cross.signature [.series x, .series y] []) m =
      (.ok [("x", .series x), ("y", .series y)], m) := outcome_arguments ..
  simp only [mem_cons, Prod.mk.injEq, not_mem_nil, or_false] at mem
  obtain ⟨rfl, rfl⟩ | ⟨rfl, rfl⟩ | ⟨rfl, rfl⟩ := mem
  · exact ⟨(bind_ok bound).trans rfl, Builtin.crossTest_single⟩
  · exact ⟨(bind_ok bound).trans rfl, Builtin.turnTest_single⟩
  · exact ⟨(bind_ok bound).trans rfl, Builtin.turnTest_single⟩

theorem marks_found {found : Nat → Bool}
    (mem : (fn, test) ∈ [(.cross, crossTest), (.crossover, turnTest .gt .lt), (.crossunder, turnTest .lt .gt)])
    (straight : m.store.Straight) (some : 0 < m.size) (present : x.id < m.store.series.size) (present' : y.id < m.store.series.size)
    (left : m.store.column x = .longs m.size a) (right : m.store.column y = .longs m.size b)
    (valid : min (m.store.valid x) (m.store.valid y) = v) (low : v < m.size) (never : found 0 = false)
    (finds : ∀ i, 0 < i → i < m.size → test (longPair (a i) (b i)) (longPair (a (i - 1)) (b (i - 1))) = .ok (.cell (.bool (found i)))) :
    Marks m fn x y v found := by
  obtain ⟨applied, single⟩ := apply_crossing mem m x y
  have answers := crossing_adds (n := m.size) straight present present' @single (by rw [valid])
  rw [left, right, marked_eq some (by omega) never fun i first less => (testAt_longs first (by omega)).trans (finds i first (by omega))]
    at answers
  obtain ⟨_, _, made, rfl, _, origin, rfl⟩ := answers
  refine ⟨_, _, applied.trans (outcome_series made), (column_alloc ..).trans (marks_congr fun i _ => ?_), ?_⟩
  · rw [decide_eq_decide.mpr (show i < (v + 1).toNat ↔ (i : Int) ≤ v by omega)]
  · rw [Store.valid, head_alloc]
    show ((1 + ((v + 1).toNat - 1) : Nat) : Int) - 1 = max 0 v
    omega

/-- Two series of small whole numbers. Where both are valid, `crossover` marks the bars at which the first one comes to be
    above the other, and `crossunder` those at which it comes to be below; `cross` marks the bars that one of them marks. The
    first bar is never marked, and no bar by both. The marks are valid where both series are. -/
theorem crossings_marked (straight : m.store.Straight) (bars : m.size = n) (some : 0 < n)
    (present : x.id < m.store.series.size) (present' : y.id < m.store.series.size)
    (left : m.store.column x = .longs n a) (right : m.store.column y = .longs n b)
    (small : ∀ i < n, (a i).natAbs ≤ 2 ^ 30 ∧ (b i).natAbs ≤ 2 ^ 30)
    (valid : min (m.store.valid x) (m.store.valid y) = v) (low : v < n) :
    Marks m .cross x y v (fun i => rises a b i || rises b a i) ∧ Marks m .crossover x y v (rises a b) ∧
      Marks m .crossunder x y v (rises b a) ∧ Marks m .crossunder y x v (rises a b) ∧
      ∀ i, rises a b 0 = false ∧ ¬(rises a b i ∧ rises b a i) := by
  subst bars
  have falls {a b : Nat → Int} (i : Nat) (first : 0 < i) (_ : i < m.size) :
      turnTest .lt .gt (longPair (a i) (b i)) (longPair (a (i - 1)) (b (i - 1))) = .ok (.cell (.bool (rises b a i))) := by
    rw [turnTest_longs]
    simp [rises, Value.decideOrder_ints, first]
  refine ⟨marks_found (.head _) straight some present present' left right valid low rfl fun i first less => ?_,
    marks_found (.tail _ (.head _)) straight some present present' left right valid low rfl fun i first less => ?_,
    marks_found (.tail _ (.tail _ (.head _))) straight some present present' left right valid low rfl falls,
    marks_found (.tail _ (.tail _ (.head _))) straight some present' present right left (by rwa [min_comm]) low rfl falls,
    fun i => ⟨rfl, ?_⟩⟩
  · rw [crossTest_longs (small i less) (small (i - 1) (by omega))]
    simp [rises, first]
  · rw [turnTest_longs]
    simp [rises, Value.decideOrder_ints, first]
  · simp only [rises, Bool.and_eq_true, decide_eq_true_eq]
    omega

/-- A machine with two series of three numbers, of which the first one falls below the other. -/
def falling : Machine :=
  let first := (({} : Store).alloc (.longs 3 ([3, 2, -1].getD · 0)) 2 .plain).2
  { new .plain (.flat [1.0, 2.0, 3.0]) with store := (first.alloc (.longs 3 ([2, 2 ^ 30, 0].getD · 0)) 1 .plain).2 }

theorem crossings_marked_falling : Marks falling .cross ⟨0⟩ ⟨1⟩ 1 (· == 1) := by
  have straight : falling.store.Straight := Straight.alloc (Straight.alloc ⟨rfl, by simp⟩ ..) ..
  obtain ⟨⟨r, m', found, marks, valid⟩, _⟩ := crossings_marked (x := ⟨0⟩) (y := ⟨1⟩) straight rfl (by decide) (by decide) (by decide)
    rfl rfl (by decide) rfl (by decide)
  exact ⟨r, m', found, marks.trans rfl, valid⟩

end Machine

end PineEngine
