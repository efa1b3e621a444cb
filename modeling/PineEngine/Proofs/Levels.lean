import PineEngine.Proofs.Constants

/-! # Columns of single values

A level column holds `n` single values: none of its entries is a list or a series. Operations on level columns give
level columns, also where the entries are no machine cells.
-/

namespace PineEngine

open Computation List Value

def Value.isSingle : Value → Bool
  | .list _ | .series _ => false
  | _ => true

namespace Value

variable {a b v : Value}

theorem single_of_number (number : v.isNumber) : v.isSingle := by
  cases v <;> first | rfl | cases number

theorem single_plain (single : v.isSingle) : v.plain.isSingle := by
  cases v with
  | cell c => cases c <;> rfl
  | _ => exact single

theorem items_of_single (single : v.isSingle) : Column.items? v = none := by
  cases v <;> first | rfl | cases single

theorem ne_series (single : v.isSingle) (r : SeriesRef) : v ≠ .series r := by
  rintro rfl
  cases single

theorem single_of_machine (machine : Kind.ofValue v ≠ .object) : v.isSingle := by
  cases v <;> first | rfl | exact (machine rfl).elim

theorem arithPlain_single {op : ArithOp} (left : a.isSingle) (right : b.isSingle) (h : arithPlain op a b = .ok v) :
    v.isSingle := by
  unfold arithPlain at h
  split at h
  · cases h
    rfl
  · cases left
  · obtain ⟨_, _, rfl⟩ := map_eq_ok h
    rfl
  · split at h <;> cases h
    rfl
  · cases left
  · split at h <;> cases h
    rfl
  · cases right
  · split at h
    · exact single_of_number (arithInts_number h)
    · split at h
      · obtain ⟨x, _, y, _, h⟩ := bind₂_eq_ok h
        obtain ⟨z, rfl⟩ := arithFloats_eq_ok h
        rfl
      · cases h

theorem compare_single {op : CompareOp} (h : compare op a b = .ok v) : v.isSingle := by
  unfold compare at h
  split at h
  · split at h
    all_goals
      obtain ⟨_, _, rfl⟩ := map_eq_ok h
      rfl
  · obtain ⟨_, _, rfl⟩ := map_eq_ok h
    rfl

theorem signum_single (h : v.signum = .ok a) : a.isSingle := by
  unfold signum at h
  split at h
  · split at h <;> cases h <;> rfl
  · cases h

end Value

def Cells.Single (cs : Cells) : Prop :=
  ∀ v ∈ cs.toList, v.isSingle

variable {i : Nat} {kind : Kind} {vs : List Value}

namespace Cells

variable {cs cs' : Cells} {v : Value}

theorem single_of_machine (machine : cs.kind ≠ .object) : cs.Single := by
  intro v mem
  cases cs with
  | objects xs => exact (machine rfl).elim
  | bools xs | ints w xs | floats xs | texts w xs =>
    obtain ⟨x, _, rfl⟩ := mem_map.mp mem
    rfl

theorem Single.set (all : cs.Single) (single : v.isSingle) (h : cs.set i v = .ok cs') : cs'.Single := by
  cases cs with
  | objects xs =>
    cases h
    intro w mem
    rw [toList, Array.toList_setIfInBounds] at mem
    rcases mem_or_eq_of_mem_set mem with old | rfl
    · exact all w old
    · exact single
  | bools xs =>
    cases h
    exact single_of_machine (by simp [Cells.kind])
  | ints w xs | floats xs | texts w xs =>
    obtain ⟨x, _, rfl⟩ := map_eq_ok h
    exact single_of_machine (by simp [Cells.kind])

theorem single_ofValuesAs (all : ∀ v ∈ vs, v.isSingle) (h : ofValuesAs kind vs = .ok cs) : cs.Single := by
  cases kind with
  | object =>
    cases h
    intro w mem
    obtain ⟨v, member, rfl⟩ := mem_map.mp mem
    exact single_plain (all v member)
  | bool | int w | float | text w => exact single_of_machine (by simp [kind_ofValuesAs h])

theorem Single.get? (all : cs.Single) (h : cs.get? i = some v) : v.isSingle :=
  all v (mem_of_getElem? ((toList_getElem? ..).trans h))

end Cells

/-- A column of `n` single values. -/
structure Column.Level (n : Nat) (c : Column) : Prop extends Column.Flat n c where
  single : c.cells.Single

/-- An operand that is a single value or a column of `n` of them. -/
def Operand.Level (n : Nat) : Operand → Prop
  | single v => v.isSingle
  | column c => c.Level n

namespace Operand.Level

variable {n : Nat} {a b : Operand}

theorem flat (level : a.Level n) : a.Flat n := by
  cases a with
  | single v => trivial
  | column c => exact Column.Level.toFlat level

theorem cellAt (level : a.Level n) (i : Nat) : (a.cellAt i).isSingle := by
  cases a with
  | single v => exact level
  | column c =>
    show ((c.cells.get? i).getD .absent).isSingle = true
    cases found : c.cells.get? i with
    | none => rfl
    | some v => exact (Column.Level.single level).get? found

theorem pairs (left : a.Level n) (right : b.Level n) (some : a.isColumn || b.isColumn) :
    ∃ ps, PineEngine.pairs a b = .ok (ps, none) ∧ ps.length = n ∧ ∀ p ∈ ps, p.1.isSingle ∧ p.2.isSingle := by
  refine ⟨_, pairs_flat left.flat right.flat some, by simp, fun p mem => ?_⟩
  obtain ⟨i, _, rfl⟩ := mem_map.mp mem
  exact ⟨left.cellAt i, right.cellAt i⟩

end Operand.Level

namespace Column

variable {n : Nat} {a b : Operand} {c c' : Column} {v : Value}

theorem level_ofCells (h : columnOfCells kind none vs = .ok c) (length : vs.length = n)
    (all : ∀ v ∈ vs, v.isSingle) : c.Level n := by
  refine ⟨(columnOfCells_flat h length).1, ?_⟩
  obtain ⟨cs, made, rfl⟩ := map_eq_ok h
  exact Cells.single_ofValuesAs all made

theorem level_ofValues (all : ∀ v ∈ vs, v.isSingle) (h : ofValues vs = .ok c) : c.Level vs.length := by
  rw [ofValues_singles fun v mem => items_of_single (all v mem)] at h
  exact level_ofCells h rfl all

theorem bools_level {rs : List Bool} (length : rs.length = n) : Level n ⟨.bools rs.toArray, none⟩ :=
  ⟨bools_flat length, Cells.single_of_machine (by simp [Cells.kind])⟩

/-- An operation on columns that makes a column of single values of such columns. -/
def Blends (f : Operand → Operand → Except Fault Column) : Prop :=
  ∀ {n a b c}, a.Level n → b.Level n → (a.isColumn || b.isColumn) → f a b = .ok c → c.Level n

theorem arithCell_single {op : ArithOp} {x y : Value} (left : x.isSingle) (right : y.isSingle)
    (h : arithCell op kind x y = .ok v) : v.isSingle := by
  unfold arithCell at h
  split at h
  · exact arithPlain_single (single_plain left) (single_plain right) h
  · obtain ⟨_, _, rfl⟩ := map_eq_ok h
    rfl

theorem arith_blends (op : ArithOp) : Blends (Column.arith op) := by
  intro n a b c left right some h
  obtain ⟨ps, paired, length, singles⟩ := left.pairs right some
  obtain ⟨⟨met, result⟩, _, h⟩ := bind_eq_ok h
  rw [paired] at h
  obtain ⟨_, ⟨⟩, vs, computed, h⟩ := bind₂_eq_ok h
  refine level_ofCells h ((length_of_mapM computed).trans length) fun v mem => ?_
  obtain ⟨p, member, here⟩ := mem_of_mapM computed mem
  exact arithCell_single (singles p member).1 (singles p member).2 here

theorem compare_blends (op : CompareOp) : Blends (Column.compare op) := by
  intro n a b c left right some h
  obtain ⟨ps, paired, length, _⟩ := left.pairs right some
  rw [Column.compare, paired] at h
  obtain ⟨_, ⟨⟩, _, _, h⟩ := bind₂_eq_ok h
  obtain ⟨rs, compared, h⟩ := bind_eq_ok h
  cases h
  exact bools_level ((length_of_mapM compared).trans length)

theorem logic_blends (isAnd : Bool) : Blends (Column.logic isAnd) := by
  intro n a b c left right some h
  obtain ⟨ps, paired, length, singles⟩ := left.pairs right some
  have chosen (v : Value) (mem : v ∈ ps.map fun p => if p.1.isTrue == isAnd then p.2 else p.1) : v.isSingle := by
    obtain ⟨p, member, rfl⟩ := mem_map.mp mem
    split
    · exact (singles p member).2
    · exact (singles p member).1
  rw [Column.logic, paired] at h
  simp only [bind, Except.bind] at h
  split at h
  · exact level_ofCells h (by simpa using length) chosen
  · exact level_ofCells h (by simpa using length) chosen
  · cases h
    exact bools_level (by simpa using length)

variable (level : c.Level n)

include level

theorem negation_level (h : negation c = .ok c') : c'.Level n := by
  obtain ⟨cells, rows⟩ := c
  cases level.rows
  have size := level.size
  have length : (cells.toList.map fun v => !v.isTrue).length = n := by
    rw [length_map, Cells.length_toList]
    exact size
  cases cells with
  | texts w xs => cases h
  | objects xs =>
    cases h
    refine ⟨⟨rfl, by simpa only [Cells.size, Array.size_map] using size⟩, fun v mem => ?_⟩
    rw [Cells.toList, Array.toList_map] at mem
    obtain ⟨_, _, rfl⟩ := mem_map.mp mem
    rfl
  | bools xs | ints w xs | floats xs =>
    cases h
    exact bools_level length

theorem signs_level (h : signs c = .ok c') : c'.Level n := by
  obtain ⟨cells, rows⟩ := c
  cases level.rows
  have size := level.size
  cases cells with
  | texts w xs | bools xs => cases h
  | objects xs =>
    obtain ⟨vs, computed, h⟩ := bind_eq_ok h
    cases h
    refine ⟨⟨rfl, ?_⟩, fun v mem => ?_⟩
    · simpa [Cells.size] using (length_of_mapM computed).trans size
    · obtain ⟨w, _, here⟩ := mem_of_mapM computed (by simpa [Cells.toList] using mem)
      exact signum_single here
  | ints w xs | floats xs =>
    cases h
    exact ⟨⟨rfl, by simpa only [Cells.size, Array.size_map] using size⟩,
      Cells.single_of_machine (by simp [Cells.kind])⟩

theorem finite_level : c.finite.Level n := by
  refine ⟨finite_flat level.toFlat, ?_⟩
  obtain ⟨cells, rows⟩ := c
  cases cells with
  | floats xs => exact Cells.single_of_machine fun object => by cases object
  | _ => exact level.single

theorem Level.set (single : v.isSingle) (h : c.set i v = .ok c') : c'.Level n := by
  refine ⟨(level.toFlat.set h).1, ?_⟩
  rw [level.toFlat.set_eq (level.toFlat.inside_of_set h)] at h
  obtain ⟨cs, stored, rfl⟩ := map_eq_ok h
  exact level.single.set single stored

theorem Level.get (h : c.get i = .ok v) : v.isSingle :=
  level.single v (level.toFlat.mem_of_get h)

end Column

end PineEngine
