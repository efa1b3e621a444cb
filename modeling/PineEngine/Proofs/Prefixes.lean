import PineEngine.Proofs.Storing

/-! # First entries of columns

What the operations on columns give for the first entries of their operands is the first entries of what they
give for all of them.
-/

namespace PineEngine

open List Cells Operand

variable {α β : Type} {offset i : Nat} {v : Value} {kind : Kind} {vs : List Value} {f : α → Except Fault β}
  {as : List α} {xs : Array α} {bs : List β}

theorem mapM_take (h : as.mapM f = .ok bs) (k : Nat) :
    (as.take k).mapM f = .ok (bs.take k) := by
  induction as generalizing bs k with
  | nil =>
    cases h
    simp [pure, Except.pure]
  | cons a as ih =>
    rw [mapM_cons] at h
    obtain ⟨b, first, rest, tail, h⟩ := bind₂_eq_ok h
    cases h
    cases k with
    | zero => rfl
    | succ k =>
      rw [take_succ_cons, mapM_cons, first, ih tail k]
      rfl

theorem mem_of_mapM (h : as.mapM f = .ok bs) {b : β}
    (mem : b ∈ bs) : ∃ a ∈ as, f a = .ok b := by
  induction as generalizing bs with
  | nil =>
    cases h
    cases mem
  | cons a as ih =>
    rw [mapM_cons] at h
    obtain ⟨b', here, bs', there, h⟩ := bind₂_eq_ok h
    cases h
    rcases mem_cons.mp mem with rfl | mem
    · exact ⟨a, mem_cons_self .., here⟩
    · obtain ⟨a', member, found⟩ := ih there mem
      exact ⟨a', mem_cons_of_mem _ member, found⟩

theorem mapM_congr {g : α → Except Fault β} (same : ∀ a ∈ as, f a = g a) : as.mapM f = as.mapM g := by
  induction as with
  | nil => rfl
  | cons a as ih =>
    have ih := ih fun b mem => same b (.tail _ mem)
    rw [mapM_cons, mapM_cons, same a (.head _), ih]

theorem mapM_map_ok {ι : Type} {u : ι → α} {g : ι → β} {is : List ι}
    (each : ∀ i ∈ is, f (u i) = .ok (g i)) : (is.map u).mapM f = .ok (is.map g) := by
  rw [mapM_map]
  exact (mapM_congr each).trans mapM_pure

theorem getElem?_arrayTake (xs : Array α) (k i : Nat) : (xs.take k)[i]? = if i < k then xs[i]? else none := by
  rw [Array.take_eq_extract, Array.getElem?_extract, Nat.zero_add, Nat.sub_zero]
  by_cases low : i < k
  · split
    next => rfl
    next high => rw [Array.getElem?_eq_none (by omega)]
  · rw [if_neg low, if_neg (by omega)]

theorem take_setIfInBounds (xs : Array α) (k i : Nat) (a : α) :
    (xs.setIfInBounds i a).take k = (xs.take k).setIfInBounds i a := by
  apply Array.ext'
  simp [take_set]

namespace Cells

variable {cs cs' : Cells} {k : Nat}

def first (k : Nat) (cs : Cells) : Cells :=
  cs.rearrange (·.take k)

@[simp] theorem kind_first (cs : Cells) (k : Nat) : (cs.first k).kind = cs.kind := by
  cases cs <;> rfl

theorem size_first (cs : Cells) (k : Nat) : (cs.first k).size = min k cs.size := by
  cases cs <;> simp [first, rearrange, size]

theorem get?_first (cs : Cells) (k i : Nat) : (cs.first k).get? i = if i < k then cs.get? i else none := by
  cases cs with
  | objects xs => exact getElem?_arrayTake xs k i
  | bools xs | ints w xs | floats xs | texts w xs =>
    simp only [first, rearrange, get?, getElem?_arrayTake]
    split <;> rfl

theorem toList_first (cs : Cells) (k : Nat) : (cs.first k).toList = cs.toList.take k := by
  cases cs <;> simp [first, rearrange, toList, map_take]

theorem set_first (h : cs.set i v = .ok cs') (k : Nat) : (cs.first k).set i v = .ok (cs'.first k) := by
  cases cs with
  | bools xs | objects xs =>
    cases h
    simp only [first, rearrange, set, take_setIfInBounds]
  | ints w xs | floats xs | texts w xs =>
    obtain ⟨x, stored, rfl⟩ := map_eq_ok h
    simp only [first, rearrange, set, stored, take_setIfInBounds, Except.map]

theorem first_set (h : cs.set i v = .ok cs') (high : k ≤ i) : cs'.first k = cs.first k := by
  have out {α : Type} (xs : Array α) (a : α) : (xs.setIfInBounds i a).take k = xs.take k := by
    rw [take_setIfInBounds]
    exact Array.setIfInBounds_eq_of_size_le (by simp; omega)
  cases cs with
  | bools xs | objects xs =>
    cases h
    simp only [first, rearrange, out]
  | ints w xs | floats xs | texts w xs =>
    obtain ⟨x, _, rfl⟩ := map_eq_ok h
    simp only [first, rearrange, out]

theorem ofValuesAs_first (h : ofValuesAs kind vs = .ok cs) (k : Nat) :
    ofValuesAs kind (vs.take k) = .ok (cs.first k) := by
  cases kind with
  | bool | object =>
    cases h
    simp only [ofValuesAs, first, rearrange, map_take, take_toArray]
  | int w | float | text w =>
    obtain ⟨xs, made, rfl⟩ := map_eq_ok h
    simp only [ofValuesAs, mapM_take made k, first, rearrange, take_toArray, Except.map]

theorem kind_ofValuesAs (h : ofValuesAs kind vs = .ok cs) : cs.kind = kind := by
  cases kind with
  | bool | object =>
    cases h
    rfl
  | int w | float | text w =>
    obtain ⟨xs, _, rfl⟩ := map_eq_ok h
    rfl

end Cells

namespace Column

def first (k : Nat) (c : Column) : Column :=
  { c with cells := c.cells.first k }

/-- A column of `n` entries that are no rows. -/
structure Flat (n : Nat) (c : Column) : Prop where
  rows : c.rowLen = none
  size : c.cells.size = n

variable {n k : Nat} {c c' : Column}

variable (flat : c.Flat n)

include flat

theorem Flat.length : c.length = n := by
  rw [Column.length, flat.rows]
  exact flat.size

theorem Flat.first (le : k ≤ n) : (c.first k).Flat k :=
  ⟨flat.rows, by rw [Column.first, Cells.size_first, flat.size, Nat.min_eq_left le]⟩

theorem Flat.get (i : Nat) : c.get i = (c.cells.get? i).elim (.error .index) .ok := by
  rw [Column.get, flat.length, flat.rows]
  by_cases inside : i < n
  · rw [position?_natCast.mpr ⟨rfl, inside⟩]
    dsimp only
    cases c.cells.get? i <;> rfl
  · have none : position? n i = none := by simp [position?, inside]
    have out : c.cells.get? i = Option.none := by
      rw [← toList_getElem?, getElem?_eq_none]
      rw [length_toList, flat.size]
      omega
    rw [none, out]
    rfl

theorem Flat.mem_of_get (got : c.get i = .ok v) : v ∈ c.cells.toList := by
  rw [flat.get] at got
  cases found : c.cells.get? i with
  | none => cases found ▸ got
  | some w =>
    cases found ▸ got
    exact mem_of_getElem? ((toList_getElem? ..).trans found)

theorem Flat.get_first (le : k ≤ n) (low : i < k) : (c.first k).get i = c.get i := by
  rw [flat.get, (flat.first le).get, Column.first, get?_first, if_pos low]

theorem Flat.toList : c.toList = c.cells.toList := by
  rw [Column.toList, flat.rows]

theorem Flat.set_eq (inside : i < n) (v : Value) : c.set i v = (c.cells.set i v).map fun cs => ⟨cs, none⟩ := by
  rw [Column.set, flat.length, position?_natCast.mpr ⟨rfl, inside⟩, flat.rows]

theorem Flat.set (h : c.set i v = .ok c') : c'.Flat n ∧ c'.cells.kind = c.cells.kind := by
  obtain ⟨rows, kind, size, _⟩ := set_entries h
  exact ⟨⟨rows.trans flat.rows, size.trans flat.size⟩, kind⟩

theorem Flat.inside_of_set (h : c.set i v = .ok c') : i < n := by
  rw [Column.set, flat.length] at h
  split at h
  · cases h
  next k place => exact (position?_natCast.mp place).2

theorem Flat.set_first (le : k ≤ n) (low : i < k) (h : c.set i v = .ok c') :
    (c.first k).set i v = .ok (c'.first k) := by
  rw [flat.set_eq (by omega)] at h
  obtain ⟨cs, stored, rfl⟩ := map_eq_ok h
  rw [(flat.first le).set_eq low, Column.first, Cells.set_first stored]
  rfl

theorem Flat.first_set (high : k ≤ i) (h : c.set i v = .ok c') : c'.first k = c.first k := by
  rw [flat.set_eq (flat.inside_of_set h)] at h
  obtain ⟨cs, stored, rfl⟩ := map_eq_ok h
  rw [Column.first, Column.first, Cells.first_set stored high, flat.rows]

end Column

namespace Operand

variable {n k : Nat} {a b : Operand}

def first (k : Nat) : Operand → Operand
  | single v => single v
  | column c => column (c.first k)

/-- An operand that is a single value or a column of `n` entries. -/
def Flat (n : Nat) : Operand → Prop
  | single _ => True
  | column c => c.Flat n

def isColumn : Operand → Bool
  | single _ => false
  | column _ => true

theorem side_first (a : Operand) (k : Nat) : (a.first k).side = a.side := by
  cases a with
  | single v => rfl
  | column c => simp [first, side, Column.first]

theorem Flat.first (flat : a.Flat n) (le : k ≤ n) : (a.first k).Flat k := by
  cases a with
  | single v => trivial
  | column c => exact Column.Flat.first flat le

theorem isColumn_first (a : Operand) (k : Nat) : (a.first k).isColumn = a.isColumn := by
  cases a <;> rfl

theorem cellAt_first (a : Operand) (low : i < k) : (a.first k).cellAt i = a.cellAt i := by
  cases a with
  | single v => rfl
  | column c => simp only [first, cellAt, Column.first, get?_first, if_pos low]

theorem shape_column {c : Column} (flat : c.Flat n) : (column c).shape = [n] := by
  rw [shape, flat.rows]
  exact congrArg ([·]) flat.size

theorem cellAt_source (flat : a.Flat n) (inside : i < n) : a.cellAt (sourcePosition a.shape [n] i) = a.cellAt i := by
  cases a with
  | single v => rfl
  | column c =>
    rw [shape_column flat]
    by_cases one : n = 1
    · subst one
      have : i = 0 := by omega
      subst this
      rfl
    · simp [sourcePosition, one]

variable (flatA : a.Flat n) (flatB : b.Flat n) (some : a.isColumn || b.isColumn)

include flatA flatB some

theorem stretch_flat : stretch a.shape b.shape = .some [n] := by
  cases a with
  | single v =>
    cases b with
    | single w => cases some
    | column c => rw [shape_column flatB]; rfl
  | column c =>
    rw [shape_column flatA]
    cases b with
    | single w => rfl
    | column c' =>
      rw [shape_column flatB]
      simp [stretch, stretchReversed, stretchLength]

theorem pairs_flat : pairs a b = .ok ((range n).map fun i => (a.cellAt i, b.cellAt i), none) := by
  rw [pairs, stretch_flat flatA flatB some]
  simp only [foldl_cons, foldl_nil, Nat.one_mul]
  refine congrArg (fun ps => Except.ok (ps, none)) (map_congr_left fun i mem => ?_)
  have inside := mem_range.mp mem
  rw [cellAt_source flatA inside, cellAt_source flatB inside]

theorem pairs_first (le : k ≤ n) : pairs (a.first k) (b.first k) =
      .ok (((range n).map fun i => (a.cellAt i, b.cellAt i)).take k, none) := by
  rw [pairs_flat (flatA.first le) (flatB.first le) (by rw [isColumn_first, isColumn_first]; exact some),
    ← map_take, take_range, Nat.min_eq_left le]
  refine congrArg (fun ps => Except.ok (ps, none)) (map_congr_left fun i mem => ?_)
  have low := mem_range.mp mem
  rw [cellAt_first a low, cellAt_first b low]

end Operand

namespace Column

variable {n k : Nat} {a b : Operand} {c c' : Column}

theorem columnOfCells_flat (h : columnOfCells kind none vs = .ok c) (length : vs.length = n) :
    c.Flat n ∧ c.cells.kind = kind := by
  obtain ⟨cs, made, rfl⟩ := map_eq_ok h
  exact ⟨⟨rfl, (ofValuesAs_size made).trans length⟩, kind_ofValuesAs made⟩

theorem columnOfCells_first (h : columnOfCells kind none vs = .ok c) (k : Nat) :
    columnOfCells kind none (vs.take k) = .ok (c.first k) := by
  obtain ⟨cs, made, rfl⟩ := map_eq_ok h
  rw [columnOfCells, ofValuesAs_first made]
  rfl

/-- An operation on columns goes entry by entry, and makes machine cells of machine cells. -/
structure Pointwise (f : Operand → Operand → Except Fault Column) : Prop where
  machine : ∀ {a b c}, a.side ≠ .kind .object → b.side ≠ .kind .object → f a b = .ok c → c.cells.kind ≠ .object
  first : ∀ {n k a b c}, a.Flat n → b.Flat n → (a.isColumn || b.isColumn) → k ≤ n → f a b = .ok c →
    c.Flat n ∧ f (a.first k) (b.first k) = .ok (c.first k)

theorem join_machine {a b : Kind} (left : a ≠ .object) (right : b ≠ .object) : a.join b ≠ .object := by
  cases a with
  | object => exact (left rfl).elim
  | _ =>
    cases b with
    | object => exact (right rfl).elim
    | _ => simp only [Kind.join]; (try split) <;> (try split) <;> simp

theorem meet_machine {a b : Side} {met : Kind} (left : a ≠ .kind .object) (right : b ≠ .kind .object)
    (h : a.meet b = some met) : met ≠ .object := by
  cases a with
  | kind a =>
    have left : a ≠ .object := fun same => left (congrArg Side.kind same)
    cases b with
    | kind b =>
      have right : b ≠ .object := fun same => right (congrArg Side.kind same)
      have joined := join_machine left right
      cases a <;> cases b <;> simp_all [Side.meet] <;> (cases h; assumption)
    | looseInt | looseFloat => cases a <;> simp_all [Side.meet] <;> (cases h; nofun)
  | looseInt | looseFloat =>
    cases b with
    | kind b => cases b <;> simp_all [Side.meet] <;> (cases h; nofun)
    | looseInt | looseFloat => cases h; nofun

theorem arithKinds_machine {op : ArithOp} {a b : Side} {met result : Kind} (left : a ≠ .kind .object)
    (right : b ≠ .kind .object) (h : arithKinds op a b = .ok (met, result)) : result ≠ .object := by
  unfold arithKinds at h
  split at h
  · cases h
  · split at h
    · cases h
    · cases h
      cases op <;> nofun
  · split at h
    · cases h
      nofun
    · cases h
  next met =>
    cases h
    have := meet_machine left right met
    unfold Cell.resultKind
    split <;> first | exact this | nofun

theorem arith_pointwise (op : ArithOp) : Pointwise (Column.arith op) := by
  refine ⟨fun left right h => ?_, fun {n k a b c} flatA flatB some le h => ?_⟩
  · obtain ⟨⟨met, result⟩, kinds, ⟨ps, rowLen⟩, _, h⟩ := bind₂_eq_ok h
    obtain ⟨vs, _, h⟩ := bind_eq_ok h
    obtain ⟨cs, made, rfl⟩ := map_eq_ok h
    rw [kind_ofValuesAs made]
    exact arithKinds_machine left right kinds
  unfold Column.arith at h ⊢
  obtain ⟨⟨met, result⟩, kinds, h⟩ := bind_eq_ok h
  rw [pairs_flat flatA flatB some] at h
  obtain ⟨⟨ps, rowLen⟩, ⟨⟩, vs, computed, h⟩ := bind₂_eq_ok h
  refine ⟨(columnOfCells_flat h ?_).1, ?_⟩
  · rw [length_of_mapM computed, length_map, length_range]
  · rw [side_first, side_first, kinds, pairs_first flatA flatB some le]
    show (do let vs ← mapM _ _; columnOfCells result none vs) = _
    rw [mapM_take computed k]
    exact columnOfCells_first h k

theorem bools_flat {rs : List Bool} (length : rs.length = n) : Flat n ⟨.bools rs.toArray, none⟩ :=
  ⟨rfl, by simpa [Cells.size] using length⟩

theorem bools_first (rs : List Bool) (k : Nat) :
    first k ⟨.bools rs.toArray, none⟩ = ⟨.bools (rs.take k).toArray, none⟩ := by
  simp [Column.first, Cells.first, Cells.rearrange]

theorem compare_pointwise (op : CompareOp) : Pointwise (Column.compare op) := by
  refine ⟨fun _ _ h => ?_, fun {n k a b c} flatA flatB some le h => ?_⟩
  · obtain ⟨⟨ps, rowLen⟩, _, _, _, h⟩ := bind₂_eq_ok h
    obtain ⟨rs, _, h⟩ := bind_eq_ok h
    cases h
    exact Kind.noConfusion
  unfold Column.compare at h ⊢
  rw [pairs_flat flatA flatB some] at h
  obtain ⟨⟨ps, rowLen⟩, ⟨⟩, _, fits, h⟩ := bind₂_eq_ok h
  obtain ⟨rs, compared, h⟩ := bind_eq_ok h
  cases h
  refine ⟨bools_flat ?_, ?_⟩
  · rw [length_of_mapM compared, length_map, length_range]
  · rw [side_first, side_first, pairs_first flatA flatB some le]
    show (do comparable op _; let rs ← mapM _ _; pure _) = _
    rw [fits, mapM_take compared k, bools_first]
    rfl

theorem logic_pointwise (isAnd : Bool) : Pointwise (Column.logic isAnd) := by
  refine ⟨fun left right h => ?_, fun {n k a b c} flatA flatB some le h => ?_⟩
  · obtain ⟨⟨ps, rowLen⟩, _, h⟩ := bind_eq_ok h
    dsimp only at h
    split at h
    next object => exact (left object).elim
    next object _ => exact (right object).elim
    next =>
      cases h
      exact Kind.noConfusion
  unfold Column.logic at h ⊢
  rw [pairs_flat flatA flatB some] at h
  rw [side_first, side_first, pairs_first flatA flatB some le]
  simp only [bind, Except.bind] at h ⊢
  split at h
  · refine ⟨(columnOfCells_flat h (by simp)).1, ?_⟩
    rw [map_take]
    exact columnOfCells_first h k
  · refine ⟨(columnOfCells_flat h (by simp)).1, ?_⟩
    rw [map_take]
    exact columnOfCells_first h k
  · cases h
    refine ⟨bools_flat (by simp), ?_⟩
    rw [bools_first, map_take]
    rfl

/-- An operation on a column of machine cells goes entry by entry. -/
structure Entrywise (f : Column → Except Fault Column) : Prop where
  first : ∀ {n k c c'}, c.Flat n → c.cells.kind ≠ .object → k ≤ n → f c = .ok c' →
    c'.Flat n ∧ c'.cells.kind ≠ .object ∧ f (c.first k) = .ok (c'.first k)

theorem negation_entrywise : Entrywise negation := by
  refine ⟨fun {n k c c'} flat machine le h => ?_⟩
  obtain ⟨cells, rows⟩ := c
  cases flat.rows
  have length : (cells.toList.map fun v => !v.isTrue).length = n := by
    rw [length_map, length_toList]
    exact flat.size
  have first : ((cells.first k).toList.map fun v => !v.isTrue) = (cells.toList.map fun v => !v.isTrue).take k := by
    rw [toList_first, map_take]
  cases cells with
  | texts w xs => cases h
  | objects xs => exact (machine rfl).elim
  | bools xs | ints w xs | floats xs =>
    cases h
    refine ⟨bools_flat length, Kind.noConfusion, Eq.trans ?_ (congrArg Except.ok (bools_first _ k).symm)⟩
    rw [← first]
    rfl

theorem signs_entrywise : Entrywise signs := by
  refine ⟨fun {n k c c'} flat machine le h => ?_⟩
  obtain ⟨cells, rows⟩ := c
  cases flat.rows
  have size := flat.size
  cases cells with
  | texts w xs | bools xs => cases h
  | objects xs => exact (machine rfl).elim
  | ints w xs | floats xs =>
    cases h
    refine ⟨⟨rfl, by simpa only [Cells.size, Array.size_map] using size⟩, Kind.noConfusion, ?_⟩
    simp [signs, Column.first, Cells.first, Cells.rearrange, Array.take_eq_extract]

theorem copy_entrywise : Entrywise .ok :=
  ⟨fun flat machine _ h => by cases h; exact ⟨flat, machine, rfl⟩⟩

theorem finite_flat (flat : c.Flat n) : c.finite.Flat n := by
  obtain ⟨cells, rows⟩ := c
  cases flat.rows
  cases cells with
  | floats xs =>
    have size := flat.size
    exact ⟨rfl, by simpa only [finite, Cells.size, Array.size_map] using size⟩
  | _ => exact flat

theorem finite_first (c : Column) (k : Nat) : (c.first k).finite = c.finite.first k := by
  obtain ⟨cells, rows⟩ := c
  cases cells <;> simp [finite, Column.first, Cells.first, Cells.rearrange, Array.take_eq_extract]

theorem kind_finite (c : Column) : c.finite.cells.kind = c.cells.kind := by
  obtain ⟨cells, rows⟩ := c
  cases cells <;> rfl

def kindOf (vs : List Value) : Kind :=
  match vs with
  | [] => .float
  | v :: rest => rest.foldl (fun k v => k.join (Kind.ofValue v)) (Kind.ofValue v)

theorem ofValues_singles (single : ∀ v ∈ vs, items? v = none) :
    ofValues vs = (Cells.ofValuesAs (kindOf vs) vs).map fun cs => ⟨cs, none⟩ := by
  have noItems : vs.any (fun v => (items? v).isSome) = false := by
    rw [any_eq_false]
    intro v mem
    rw [single v mem]
    exact Bool.false_ne_true
  cases vs with
  | nil => rfl
  | cons v vs =>
    rw [ofValues, mapM_cons, single v (.head _), noItems]
    rfl

theorem kindOf_uniform (some : vs ≠ []) (same : ∀ v ∈ vs, Kind.ofValue v = kind) : kindOf vs = kind := by
  cases vs with
  | nil => exact (some rfl).elim
  | cons v vs =>
    have first := same v (.head _)
    have rest (v : Value) (mem : v ∈ vs) := same v (.tail _ mem)
    clear same some
    rw [kindOf, first]
    induction vs with
    | nil => rfl
    | cons w vs ih =>
      rw [foldl_cons, rest w (.head _), Kind.join_self]
      exact ih fun v mem => rest v (.tail _ mem)

theorem take_ne_nil (pos : 1 ≤ k) (some : vs ≠ []) : vs.take k ≠ [] := by
  simp [take_eq_nil_iff, some]
  omega

theorem ofValues_first (single : ∀ v ∈ vs, items? v = none) (kind : kindOf (vs.take k) = kindOf vs)
    (h : ofValues vs = .ok c) :
    c.Flat vs.length ∧ c.cells.kind = kindOf vs ∧ ofValues (vs.take k) = .ok (c.first k) := by
  rw [ofValues_singles single] at h
  have flat : c.Flat vs.length ∧ c.cells.kind = kindOf vs := columnOfCells_flat h rfl
  refine ⟨flat.1, flat.2, ?_⟩
  rw [ofValues_singles fun v mem => single v (mem_of_mem_take mem), kind]
  exact columnOfCells_first h k

theorem ofValues_uniform (single : ∀ v ∈ vs, items? v = none) (same : ∀ v ∈ vs, Kind.ofValue v = kind)
    (pos : 1 ≤ k) (some : vs ≠ []) (h : ofValues vs = .ok c) :
    c.Flat vs.length ∧ c.cells.kind = kind ∧ ofValues (vs.take k) = .ok (c.first k) := by
  have whole := kindOf_uniform some same
  have part := kindOf_uniform (take_ne_nil pos some) fun v mem => same v (mem_of_mem_take mem)
  obtain ⟨flat, kind', first⟩ := ofValues_first single (part.trans whole.symm) h
  exact ⟨flat, kind'.trans whole, first⟩

theorem ofValues_replicate_first (single : items? v = none) (pos : 1 ≤ k) (le : k ≤ n)
    (h : ofValues (List.replicate n v) = .ok c) :
    c.Flat n ∧ c.cells.kind = Kind.ofValue v ∧ ofValues (List.replicate k v) = .ok (c.first k) := by
  have all (w : Value) (mem : w ∈ List.replicate n v) : w = v := eq_of_mem_replicate mem
  have := ofValues_uniform (fun w mem => (all w mem) ▸ single) (fun w mem => congrArg Kind.ofValue (all w mem))
    pos (ne_nil_of_length_pos (by rw [length_replicate]; omega)) h
  rwa [length_replicate, take_replicate, Nat.min_eq_left le] at this

end Column

end PineEngine
