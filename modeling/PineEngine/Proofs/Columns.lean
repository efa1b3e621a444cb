import PineEngine.Column.Arith

/-! # Columns under writing and counting

Storing an entry changes no other entry, and neither the kind nor the shape of a column
(`Column.set_entries`). An operation on two columns has as many cells as pairs of cells meet; if that is a
single one, either side was a single cell (`single_of_pairs`).
-/

namespace PineEngine

open List Cells

variable {α β : Type} {cs cs' : Cells} {v w : Value} {c : Column} {f : α → Except Fault β} {x : Except Fault α}

theorem bind_eq_ok {b : β} (h : (x >>= f) = .ok b) :
    ∃ a, x = .ok a ∧ f a = .ok b := by
  cases x with
  | error e => cases h
  | ok a => exact ⟨a, rfl, h⟩

theorem bind₂_eq_ok {γ : Type} {g : α → β → Except Fault γ} {c : γ}
    (h : (x >>= fun a => f a >>= g a) = .ok c) : ∃ a, x = .ok a ∧ ∃ b, f a = .ok b ∧ g a b = .ok c := by
  obtain ⟨a, first, h⟩ := bind_eq_ok h
  exact ⟨a, first, bind_eq_ok h⟩

theorem ok_bind (a : α) (f : α → Except Fault β) : (Except.ok a >>= f) = f a := rfl

theorem map_eq_ok {f : α → β} {b : β} (h : x.map f = .ok b) : ∃ a, x = .ok a ∧ f a = b := by
  cases x with
  | error e => cases h
  | ok a => cases h; exact ⟨a, rfl, rfl⟩

theorem length_of_mapM {as : List α} {bs : List β} (h : as.mapM f = .ok bs) :
    bs.length = as.length := by
  induction as generalizing bs with
  | nil => cases h; rfl
  | cons a as ih =>
    rw [mapM_cons] at h
    obtain ⟨b, _, rest, tail, h⟩ := bind₂_eq_ok h
    cases h
    rw [length_cons, ih tail, length_cons]

namespace Cells

theorem toList_getElem? (cs : Cells) (i : Nat) : cs.toList[i]? = cs.get? i := by
  cases cs <;> simp [toList, get?, getElem?_map]

theorem length_toList (cs : Cells) : cs.toList.length = cs.size := by
  cases cs <;> simp [toList, size]

/-- Cells of one kind and number that agree outside some positions. -/
structure AgreeBut (within : Nat → Prop) (cs cs' : Cells) : Prop where
  kind : cs'.kind = cs.kind
  size : cs'.size = cs.size
  cells : ∀ i, ¬ within i → cs'.get? i = cs.get? i

theorem AgreeBut.refl (within : Nat → Prop) (cs : Cells) : AgreeBut within cs cs :=
  ⟨rfl, rfl, fun _ _ => rfl⟩

variable {within : Nat → Prop}

theorem AgreeBut.trans {as bs : Cells} (first : AgreeBut within as bs) (second : AgreeBut within bs cs) :
    AgreeBut within as cs :=
  ⟨second.kind.trans first.kind, second.size.trans first.size,
    fun i outside => (second.cells i outside).trans (first.cells i outside)⟩

theorem set_agrees {i : Nat} (h : cs.set i v = .ok cs') (inside : within i) : AgreeBut within cs cs' := by
  have apart (j : Nat) (outside : ¬ within j) : i ≠ j := fun same => outside (same ▸ inside)
  cases cs with
  | bools xs | objects xs =>
    cases h
    exact ⟨rfl, by simp [size], fun j outside => by
      simp [get?, Array.getElem?_setIfInBounds_ne (apart j outside)]⟩
  | ints w xs | floats xs | texts w xs =>
    obtain ⟨x, _, rfl⟩ := map_eq_ok h
    exact ⟨rfl, by simp [size], fun j outside => by
      simp [get?, Array.getElem?_setIfInBounds_ne (apart j outside)]⟩

theorem setAll_agrees {at_ : Nat → Nat} {row : List (Value × Nat)}
    (h : row.foldlM (fun cs (x : Value × Nat) => cs.set (at_ x.2) x.1) cs = .ok cs')
    (inside : ∀ x ∈ row, within (at_ x.2)) : AgreeBut within cs cs' := by
  induction row generalizing cs with
  | nil => cases h; exact .refl within _
  | cons x row ih =>
    obtain ⟨next, first, h⟩ := bind_eq_ok h
    have here := set_agrees first (inside x (.head _))
    exact here.trans (ih h fun y member => inside y (.tail _ member))

def cellOf (k : Kind) (v : Value) : Except Fault Value :=
  match k with
  | .bool => .ok (.cell (.bool v.isTrue))
  | .int w => (intCell w v).map fun n => .cell (.int w n)
  | .float => (floatCell v).map fun x => .cell (.float x)
  | .text n => (textCell n v).map fun s => .cell (.text s)
  | .object => .ok v

theorem set_cellOf (i : Nat) (stored : cellOf cs.kind v = .ok w) :
    ∃ cs', cs.set i v = .ok cs' ∧ cs'.kind = cs.kind ∧ cs'.toList = cs.toList.set i w := by
  cases cs with
  | bools xs | objects xs =>
    cases stored
    exact ⟨_, rfl, rfl, by simp [toList, map_set]⟩
  | ints k xs | floats xs | texts k xs =>
    obtain ⟨x, made, rfl⟩ := map_eq_ok stored
    refine ⟨_, congrArg (Except.map _) made, rfl, ?_⟩
    simp [toList, map_set]

theorem ofValuesAs_size {k : Kind} {vs : List Value} (h : ofValuesAs k vs = .ok cs) : cs.size = vs.length := by
  cases k with
  | bool | object => cases h; simp [size]
  | int | float | text =>
    obtain ⟨xs, made, rfl⟩ := map_eq_ok h
    simp [size, length_of_mapM made]

end Cells

namespace Column

variable {j n k : Nat} {c' : Column} {i : Int}

theorem position?_natCast : position? n j = some k ↔ k = j ∧ j < n := by
  simp only [position?, Int.natCast_nonneg, if_true, Int.toNat_natCast, Int.ofNat_lt]
  split
  · simp; omega
  · simp; omega

theorem row_eq {start : Nat} (same : ∀ t, t < n → cs'.get? (start + t) = cs.get? (start + t)) :
    (cs'.toList.drop start).take n = (cs.toList.drop start).take n := by
  apply ext_getElem?
  intro t
  rw [getElem?_take, getElem?_take]
  split
  next inside => rw [getElem?_drop, getElem?_drop, toList_getElem?, toList_getElem?, same t inside]
  next => rfl

theorem length_eq (rowLen : c'.rowLen = c.rowLen) (size : c'.size = c.size) : c'.length = c.length := by
  rw [length, length, rowLen, size]

theorem get_eq (c : Column) (size : cs.size = c.cells.size) (single : c.rowLen = none → cs.get? j = c.cells.get? j)
    (row : ∀ n, c.rowLen = some n → ∀ t, t < n → cs.get? (j * n + t) = c.cells.get? (j * n + t)) :
    get ⟨cs, c.rowLen⟩ j = c.get j := by
  have length : length ⟨cs, c.rowLen⟩ = c.length := length_eq rfl size
  simp only [get, length]
  split
  next => rfl
  next k found =>
    obtain ⟨rfl, _⟩ := position?_natCast.mp found
    split
    next noRows => rw [single noRows]
    next n rows => rw [row_eq (row n rows)]

structure Holds (k : Kind) (vs : List Value) (c : Column) : Prop where
  rows : c.rowLen = none
  kind : c.cells.kind = k
  entries : c.toList = vs

section Holds

variable {k : Kind} {vs : List Value} {c : Column}

variable (holds : c.Holds k vs)

include holds

theorem Holds.cells : c = ⟨c.cells, none⟩ ∧ c.cells.toList = vs := by
  obtain ⟨cs, rowLen⟩ := c
  cases holds.rows
  exact ⟨rfl, holds.entries⟩

theorem Holds.size : c.size = vs.length := by
  rw [Column.size, ← length_toList, holds.cells.2]

theorem Holds.length : c.length = vs.length := by
  rw [Column.length, holds.rows]
  exact holds.size

theorem Holds.set (place : position? vs.length i = some j)
    (stored : Cells.cellOf k v = .ok w) : ∃ c', c.set i v = .ok c' ∧ c'.Holds k (vs.set j w) := by
  obtain ⟨cs, done, kind, entries⟩ := set_cellOf j (holds.kind ▸ stored)
  refine ⟨⟨cs, none⟩, ?_, rfl, kind.trans holds.kind, entries.trans (by rw [holds.cells.2])⟩
  rw [Column.set, holds.length, place]
  simp only [holds.rows, done]
  rfl

end Holds

theorem length_rowOf {row : List Value} (h : rowOf n v = .ok row) : row.length = n := by
  unfold rowOf at h
  split at h
  · cases h; exact length_replicate
  · split at h
    next same => cases h; exact eq_of_beq same
    next => cases h
  · cases h; exact length_replicate

theorem set_entries {i : Nat} (h : c.set i v = .ok c') :
    c'.rowLen = c.rowLen ∧ c'.cells.kind = c.cells.kind ∧ c'.size = c.size ∧
      ∀ j : Nat, j ≠ i → c'.get j = c.get j := by
  unfold set at h
  split at h
  next => cases h
  next k found =>
    obtain ⟨rfl, _⟩ := position?_natCast.mp found
    split at h
    next noRows =>
      obtain ⟨cs, stored, rfl⟩ := map_eq_ok h
      have agree : Cells.AgreeBut (· = k) c.cells cs := set_agrees stored rfl
      refine ⟨rfl, agree.kind, agree.size, fun j other => ?_⟩
      refine get_eq c agree.size (fun _ => agree.cells j other) fun n rows => ?_
      rw [noRows] at rows
      cases rows
    next n rows =>
      obtain ⟨row, made, cs, stored, h⟩ := bind₂_eq_ok h
      cases h
      have agree : Cells.AgreeBut (fun p => k * n ≤ p ∧ p < k * n + n) c.cells cs := by
        refine setAll_agrees stored fun x member => ?_
        have := (mem_zipIdx member).2.1
        rw [length_rowOf made] at this
        omega
      refine ⟨rfl, agree.kind, agree.size, fun j other => ?_⟩
      refine get_eq c agree.size (fun noRows => ?_) fun n' rows' t inside => ?_
      · rw [rows] at noRows
        cases noRows
      · rw [rows] at rows'
        cases rows'
        refine agree.cells _ fun within => ?_
        -- A row before or after the stored one ends before or starts after it.
        rcases Nat.lt_or_gt_of_ne other with before | after
        · have := Nat.mul_le_mul_right n before
          rw [Nat.succ_mul] at this
          omega
        · have := Nat.mul_le_mul_right n after
          rw [Nat.succ_mul] at this
          omega

theorem position?_lt (h : position? n i = some k) : k < n := by
  unfold position? at h
  split at h
  · split at h <;> simp only [Option.some.injEq, reduceCtorEq] at h
    omega
  · split at h <;> simp only [Option.some.injEq, reduceCtorEq] at h
    omega

/-- What is stored at an index from either end is stored at a place. -/
theorem set_place (h : c.set i v = .ok c') : ∃ k : Nat, k < c.length ∧ c.set k v = .ok c' := by
  cases place : position? c.length i with
  | none =>
    simp only [set, place] at h
    cases h
  | some k =>
    refine ⟨k, position?_lt place, h ▸ ?_⟩
    simp only [set, place, position?_natCast.mpr ⟨rfl, position?_lt place⟩]

theorem set_length (h : c.set i v = .ok c') : c'.length = c.length := by
  obtain ⟨_, _, h⟩ := set_place h
  obtain ⟨rows, _, size, _⟩ := set_entries h
  exact length_eq rows size

end Column

theorem ones_of_product {l : List Nat} {a : Nat} (one : l.foldl (· * ·) a = 1) :
    a = 1 ∧ ∀ w ∈ l, w = 1 := by
  induction l generalizing a with
  | nil => exact ⟨one, by simp⟩
  | cons w l ih =>
    obtain ⟨product, rest⟩ := ih one
    have first : a = 1 := Nat.eq_one_of_mul_eq_one_right product
    have second : w = 1 := Nat.eq_one_of_mul_eq_one_left product
    exact ⟨first, forall_mem_cons.mpr ⟨second, rest⟩⟩

theorem ones_of_stretch {as bs ws : List Nat} (h : stretchReversed as bs = some ws)
    (ones : ∀ w ∈ ws, w = 1) : ∀ a ∈ as, a = 1 := by
  induction as generalizing bs ws with
  | nil => simp
  | cons a as ih =>
    cases bs with
    | nil =>
      cases h
      exact ones
    | cons b bs =>
      simp only [stretchReversed, Option.bind_eq_bind, Option.bind_eq_some_iff] at h
      obtain ⟨w, first, ws, rest, h⟩ := h
      cases h
      have one : a = 1 := by
        have := ones w (by simp)
        simp only [stretchLength, beq_iff_eq] at first
        split at first
        · cases first; exact this
        · split at first
          · assumption
          · split at first
            · cases first; exact this
            · cases first
      exact forall_mem_cons.mpr ⟨one, ih rest fun w member => ones w (.tail _ member)⟩

namespace Column

structure Single (c : Column) : Prop where
  size : c.size = 1
  rows : c.rowLen = none ∨ c.rowLen = some 1

variable {b : Operand} {op : ArithOp}

theorem single_of_pairs {ps : List (Value × Value)} {rowLen : Option Nat}
    (h : pairs (.column c) b = .ok (ps, rowLen)) (one : ps.length = 1) : c.Single := by
  unfold pairs at h
  split at h
  next => cases h
  next whole stretched =>
    cases h
    have ones := (ones_of_product (by simpa using one)).2
    simp only [stretch, Option.map_eq_some_iff] at stretched
    obtain ⟨reversed, stretched, rfl⟩ := stretched
    have shape := ones_of_stretch stretched fun w member => ones w (mem_reverse.mpr member)
    cases rows : c.rowLen with
    | none =>
      have := shape c.size (by simp [Operand.shape, rows])
      exact ⟨this, .inl rows⟩
    | some n =>
      have width := shape n (by simp [Operand.shape, rows])
      have length := shape c.length (by simp [Operand.shape, rows])
      subst width
      simp only [Column.length, rows] at length
      exact ⟨by simpa using length, .inr rows⟩

theorem compare_shape {op : CompareOp} {a : Operand} (h : Column.compare op a b = .ok c) :
    ∃ ps rowLen, pairs a b = .ok (ps, rowLen) ∧ c.rowLen = rowLen ∧ c.size = ps.length := by
  obtain ⟨⟨ps, rowLen⟩, met, _, _, h⟩ := bind₂_eq_ok h
  obtain ⟨rs, compared, h⟩ := bind_eq_ok h
  cases h
  exact ⟨ps, rowLen, met, rfl, by simpa [size, Cells.size] using length_of_mapM compared⟩

theorem arith_shape {a : Operand} (h : Column.arith op a b = .ok c) :
    ∃ ps rowLen, pairs a b = .ok (ps, rowLen) ∧ c.rowLen = rowLen ∧ c.size = ps.length := by
  obtain ⟨⟨k, k'⟩, _, ⟨ps, rowLen⟩, met, h⟩ := bind₂_eq_ok h
  obtain ⟨vs, computed, h⟩ := bind_eq_ok h
  obtain ⟨cs, made, rfl⟩ := map_eq_ok h
  exact ⟨ps, rowLen, met, rfl, (ofValuesAs_size made).trans (length_of_mapM computed)⟩

theorem arith_length {next : Column} (h : Column.arith op (.column c) (.single v) = .ok next) :
    next.length = c.length := by
  obtain ⟨ps, rowLen, met, rows, size⟩ := arith_shape h
  cases whole : c.rowLen with
  | none =>
    simp [pairs, Operand.shape, whole, stretch, stretchReversed] at met
    rw [length, length, rows, size, whole, ← met.1, ← met.2]
    simp
  | some n =>
    simp [pairs, Operand.shape, whole, stretch, stretchReversed] at met
    have count : ps.length = c.length * n := by simp [← met.1]
    rw [length, rows, ← met.2, size, count]
    by_cases zero : n = 0
    · simp [length, whole, zero]
    · simp [zero, Nat.mul_div_cancel _ (Nat.pos_of_ne_zero zero)]

end Column

end PineEngine
