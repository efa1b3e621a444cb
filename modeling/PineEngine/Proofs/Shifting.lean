import PineEngine.Proofs.Levels

/-! # Series seen some bars later or earlier

A series is moved by rotating its cells and overwriting those that come in at the other end. What is left are its
entries, each moved by the offset, with its default where none of them comes to stand (`moved`).
-/

namespace PineEngine

open Computation List

/-- The value at a place, which may lie before the first one or behind the last one. -/
def placed (vs : List Value) (i : Int) : Option Value :=
  if 0 ≤ i then vs[i.toNat]? else none

/-- The values moved on by an offset, with another one where none of them comes to stand. -/
def moved (offset : Int) (w : Value) (vs : List Value) : List Value :=
  (range vs.length).map fun (i : Nat) => (placed vs (i - offset)).getD w

variable {k : Kind} {w d : Value} {vs : List Value} {f : Value → Value} {i n : Nat} {offset : Int}

@[simp] theorem length_moved : (moved offset w vs).length = vs.length := by
  simp [moved]

theorem getElem?_moved :
    (moved offset w vs)[i]? = if i < vs.length then some ((placed vs (i - offset)).getD w) else none := by
  grind [moved]

theorem moved_zero : moved 0 w vs = vs := by
  apply ext_getElem?
  intro i
  grind [getElem?_moved, placed]

theorem moved_all (all : vs.length ≤ offset.natAbs) : moved offset w vs = replicate vs.length w := by
  apply ext_getElem?
  intro i
  grind [getElem?_moved, placed]

theorem map_moved : (moved offset w vs).map f = moved offset (f w) (vs.map f) := by
  apply ext_getElem?
  intro i
  grind [getElem?_moved, placed]

theorem moved_take (offset k : Nat) : (moved offset w vs).take k = moved offset w (vs.take k) := by
  apply ext_getElem?
  intro i
  grind [getElem?_moved, placed]

theorem moved_moved {a b : Int} (alike : 0 ≤ a ∧ 0 ≤ b ∨ a ≤ 0 ∧ b ≤ 0) :
    moved b w (moved a w vs) = moved (a + b) w vs := by
  apply ext_getElem?
  intro i
  grind [getElem?_moved, placed, length_moved]

theorem getElem?_foldl_set (is : List Nat) (vs : List Value) (w : Value) (i : Nat) :
    (is.foldl (fun vs i => vs.set i w) vs)[i]? = if i ∈ is then vs[i]?.map fun _ => w else vs[i]? := by
  induction is generalizing vs with
  | nil => simp
  | cons j is ih =>
    rw [foldl_cons, ih]
    grind

/-- The places that a rotation fills from the other end. -/
def gaps (n : Nat) (offset : Int) : List Nat :=
  if 0 < offset then range offset.toNat else (range (-offset).toNat).map (n - (-offset).toNat + ·)

theorem mem_gaps (low : offset.natAbs < n) : i ∈ gaps n offset ↔ i < n ∧ (i < offset ∨ n + offset ≤ i) := by
  unfold gaps
  split
  · simp
    omega
  · simp
    constructor
    · rintro ⟨j, low, rfl⟩
      omega
    · exact fun inside => ⟨i - (n - (-offset).toNat), by omega⟩

def rotated (offset : Int) (vs : List Value) : List Value :=
  let start := vs.length - (offset % vs.length).toNat
  vs.drop start ++ vs.take start

theorem length_rotated : (rotated offset vs).length = vs.length := by
  grind [rotated]

theorem set_rotated (low : offset.natAbs < vs.length) :
    (gaps vs.length offset).foldl (fun vs i => vs.set i w) (rotated offset vs) = moved offset w vs := by
  have turn : (offset % vs.length).toNat = if 0 ≤ offset then offset.toNat else (vs.length + offset).toNat := by
    split
    · rw [Int.emod_eq_of_lt (by omega) (by omega)]
    · rw [← Int.add_emod_left, Int.emod_eq_of_lt (by omega) (by omega)]
  apply ext_getElem?
  intro i
  simp only [getElem?_foldl_set, getElem?_moved, mem_gaps low, rotated, turn, placed]
  by_cases sign : 0 ≤ offset
  · have place : (i - offset).toNat = i - offset.toNat := by omega
    simp only [sign, place, if_true]
    grind
  · have place : (i - offset).toNat = i + (-offset).toNat := by omega
    simp only [sign, place, if_false]
    grind

theorem Cells.eq_of_toList {cs cs' : Cells} (kind : cs.kind = cs'.kind) (entries : cs.toList = cs'.toList) :
    cs = cs' := by
  cases cs <;> cases cs' <;> cases kind <;> congr
  all_goals first
    | exact Array.toList_inj.mp entries
    | exact Array.toList_inj.mp ((List.map_inj_right (by simp)).mp entries)

theorem SeriesRef.cellOf_default (default : defaultOf k = .ok d) : ∃ w, Cells.cellOf k d = .ok w ∧ w.plain = d := by
  unfold defaultOf at default
  split at default <;> cases default <;> exact ⟨_, rfl, rfl⟩

namespace Column

variable {c c' : Column}

theorem toList_rotate (cs : Cells) (offset : Int) :
    (rotate ⟨cs, none⟩ offset).cells.toList = rotated offset cs.toList := by
  cases cs <;>
    simp only [rotate, Cells.rearrange, Cells.toList, rotated, length_map, Array.length_toList] <;>
    split <;> simp_all [take_of_length_le]

theorem rotate_level (level : c.Level n) (offset : Int) : (c.rotate offset).Level n := by
  obtain ⟨cells, rows⟩ := c
  cases level.rows
  have entries := toList_rotate cells offset
  refine ⟨⟨rfl, ?_⟩, fun v mem => level.single v ?_⟩
  · rw [← Cells.length_toList, entries, length_rotated, Cells.length_toList]
    exact level.size
  · rw [entries, rotated] at mem
    exact (mem_append.mp mem).elim mem_of_mem_drop mem_of_mem_take

/-- The column as seen a number of bars later, with defaults where there is no entry. -/
def shift (c : Column) (offset : Int) : Except Fault Column :=
  if offset == 0 then .ok c
  else do
    let d ← SeriesRef.defaultOf c.cells.kind
    if c.size ≤ offset.natAbs then ofValues (List.replicate c.size d)
    else (gaps c.size offset).foldlM (fun (c : Column) (i : Nat) => c.set i d) (c.rotate offset)

namespace Holds

variable (holds : c.Holds k vs)

include holds

theorem unique (holds' : c'.Holds k vs) : c = c' := by
  have kind := holds.kind.trans holds'.kind.symm
  have entries := holds.cells.2.trans holds'.cells.2.symm
  rw [holds.cells.1, holds'.cells.1, Cells.eq_of_toList kind entries]

theorem first (n : Nat) : (c.first n).Holds k (vs.take n) := by
  obtain ⟨flat, rfl⟩ := holds.cells
  refine ⟨holds.rows, (Cells.kind_first ..).trans holds.kind, ?_⟩
  rw [flat]
  exact Cells.toList_first ..

theorem rotate (offset : Int) : (c.rotate offset).Holds k (rotated offset vs) := by
  obtain ⟨flat, rfl⟩ := holds.cells
  refine ⟨holds.rows, ?_, ?_⟩
  · rw [← holds.kind, flat]
    cases c.cells <;> rfl
  · rw [flat]
    exact toList_rotate c.cells offset

theorem fill (stored : Cells.cellOf k d = .ok w) (is : List Nat) (inside : ∀ i ∈ is, i < vs.length) :
    ∃ c', is.foldlM (fun (c : Column) (i : Nat) => c.set i d) c = .ok c' ∧
      c'.Holds k (is.foldl (fun vs i => vs.set i w) vs) := by
  induction is generalizing c vs with
  | nil => exact ⟨c, rfl, holds⟩
  | cons i is ih =>
    obtain ⟨c₁, here, holds₁⟩ := holds.set (position?_natCast.mpr ⟨rfl, inside i (.head _)⟩) stored
    obtain ⟨c', rest, holds'⟩ := ih holds₁ fun j mem => by simpa using inside j (.tail _ mem)
    exact ⟨c', by rw [foldlM_cons, here]; exact rest, holds'⟩

end Holds

/-- A column of defaults. Those of a column of values of any kind are truth values. -/
theorem holds_defaults (default : SeriesRef.defaultOf k = .ok d) (n : Nat) :
    ∃ c k' w, ofValues (List.replicate (n + 1) d) = .ok c ∧ c.Holds k' (List.replicate (n + 1) w) ∧
      w.plain = d ∧ SeriesRef.defaultOf k' = .ok d ∧ (k ≠ .object → k' = k ∧ Cells.cellOf k d = .ok w) := by
  have ⟨falses, made, holds⟩ : ∃ c, ofValues (List.replicate (n + 1) (.bool false)) = .ok c ∧
      c.Holds .bool (List.replicate (n + 1) (.cell (.bool false))) :=
    ⟨_, ofValues_replicate rfl n, rfl, rfl, by simp [toList, Cells.toList, Value.isTrue]⟩
  unfold SeriesRef.defaultOf at default
  split at default <;> cases default
  · exact ⟨_, .float, _, ofValues_notNumbers n, ⟨rfl, rfl, map_replicate⟩, rfl, rfl, fun _ => ⟨rfl, rfl⟩⟩
  · exact ⟨_, .int .long, _, ofValues_zeros n, ⟨rfl, rfl, map_replicate⟩, rfl, rfl, fun _ => ⟨rfl, rfl⟩⟩
  · exact ⟨falses, .bool, _, made, holds, rfl, rfl, fun _ => ⟨rfl, rfl⟩⟩
  · exact ⟨falses, .bool, _, made, holds, rfl, rfl, fun other => (other rfl).elim⟩

theorem Holds.shift (holds : c.Holds k vs) (default : SeriesRef.defaultOf k = .ok d) (offset : Int) :
    ∃ c' k' d' w, c.shift offset = .ok c' ∧ c'.Holds k' (moved offset w vs) ∧ w.plain = d ∧
      SeriesRef.defaultOf k' = .ok d' ∧
      (vs ≠ [] → d' = d ∧ (k ≠ .object → k' = k ∧ Cells.cellOf k d = .ok w)) := by
  obtain ⟨w, stored, same⟩ := SeriesRef.cellOf_default default
  unfold Column.shift
  split
  next zero =>
    rw [eq_of_beq zero]
    exact ⟨c, k, d, w, rfl, moved_zero.symm ▸ holds, same, default, fun _ => ⟨rfl, fun _ => ⟨rfl, stored⟩⟩⟩
  rw [holds.kind, default, ok_bind, holds.size]
  split
  next all =>
    simp only [moved_all all]
    cases length : vs.length with
    | zero =>
      exact ⟨_, .float, _, w, rfl, ⟨rfl, rfl, rfl⟩, same, rfl, fun some => (some (length_eq_zero_iff.mp length)).elim⟩
    | succ n =>
      obtain ⟨c', k', w, made, holds', same, default', rest⟩ := holds_defaults default n
      exact ⟨c', k', d, w, made, holds', same, default', fun _ => ⟨rfl, rest⟩⟩
  next low =>
    have low : offset.natAbs < vs.length := by omega
    obtain ⟨c', filled, holds'⟩ := (holds.rotate offset).fill stored (gaps vs.length offset) fun i mem => by
      rw [length_rotated]
      exact ((mem_gaps low).mp mem).1
    exact ⟨c', k, d, w, filled, set_rotated low ▸ holds', same, default, fun _ => ⟨rfl, fun _ => ⟨rfl, stored⟩⟩⟩

end Column

namespace SeriesRef

open Store

variable {s : Store} {r : SeriesRef} {c c' : Column} {valid : Int} {origin : Origin}

theorem outcome_fill {is : List Nat} (filled : is.foldlM (fun (c : Column) (i : Nat) => c.set i d) c = .ok c') :
    outcome (is.forM fun i => set ⟨s.series.size⟩ i d) (s.alloc c valid origin).2 =
      (.ok (), (s.alloc c' valid origin).2) := by
  induction is generalizing c with
  | nil =>
    cases filled
    rfl
  | cons i is ih =>
    obtain ⟨c₁, here, rest⟩ := bind_eq_ok filled
    have stored : outcome (set ⟨s.series.size⟩ i d) (s.alloc c valid origin).2 =
        (.ok (), (s.alloc c₁ valid origin).2) :=
      (outcome_set ((congrArg (·.set i d) (column_alloc ..)).trans here)).trans (congrArg _ (setColumn_alloc ..))
    exact (bind_ok stored).trans (ih rest)

theorem outcome_shift (present : r.id < s.series.size) (moves : offset ≠ 0)
    (made : (s.column r).shift offset = .ok c) :
    ∃ origin, outcome (r.shift offset) s = (.ok ⟨s.series.size⟩, (s.alloc c (s.valid r) origin).2) := by
  let r' : SeriesRef := ⟨s.series.size⟩
  have finish (valid : Int) (origin : Origin) :
      outcome (do setValid r' (← r.valid); pure r') (s.alloc c valid origin).2 =
        (.ok r', (s.alloc c (s.valid r) origin).2) := by
    rw [bind_ok (outcome_valid ..), bind_ok (outcome_setValid ..), setValid_alloc, Store.valid,
      (alloc_grows ..).head_eq present]
    rfl
  have moves : ¬ (offset == 0) = true := by simpa
  unfold Column.shift at made
  unfold shift
  rw [if_neg moves] at made ⊢
  obtain ⟨d, default, made⟩ := bind_eq_ok made
  rw [bind_ok ((outcome_default r s).trans (by rw [default])), bind_ok (outcome_size r s)]
  split at made
  next all =>
    have plain (r : SeriesRef) : d ≠ .series r := by
      unfold defaultOf at default
      split at default <;> cases default <;> simp
    rw [if_pos all, bind_ok (outcome_replicate plain made s)]
    exact ⟨_, finish _ _⟩
  next low =>
    rw [if_neg low, bind_ok (outcome_mapColumn (f := fun c => .ok (c.rotate offset)) rfl)]
    exact ⟨_, (bind_ok (outcome_fill made)).trans (finish ..)⟩

theorem shift_column (present : r.id < s.series.size) (inside : (s.head r).column < s.columns.size)
    (made : (s.column r).shift offset = .ok c) : ∃ r' s', outcome (r.shift offset) s = (.ok r', s') ∧
      s'.valid r' = s.valid r ∧ s'.column r' = c ∧ s.Grows s' ∧ r'.id < s'.series.size ∧
      (s'.head r').column < s'.columns.size := by
  by_cases zero : offset = 0
  · subst zero
    cases made
    exact ⟨r, s, rfl, rfl, rfl, Std.Refl.refl s, present, inside⟩
  · obtain ⟨origin, ran⟩ := outcome_shift present zero made
    refine ⟨_, _, ran, ?_, column_alloc .., alloc_grows .., ?_, ?_⟩
    · rw [Store.valid, head_alloc]
    · simp [alloc]
    · rw [head_alloc]
      simp [alloc]

/-- A series seen any number of bars later or earlier has the entries of the series as far as there are any, and the
    default of the series elsewhere. Moving it twice to one side is moving it by both offsets at once; the default is
    compared as a value, for of a series of values of any kind that is moved out truth values are left. -/
theorem shift_moves (present : r.id < s.series.size) (inside : (s.head r).column < s.columns.size)
    (rows : (s.column r).rowLen = none) (default : defaultOf (s.column r).cells.kind = .ok d) :
    (∀ offset, ∃ r' s' w, outcome (r.shift offset) s = (.ok r', s') ∧
      (s'.column r').length = (s.column r).length ∧ s'.valid r' = s.valid r ∧
      (s'.column r').toList = moved offset w (s.column r).toList ∧ w.plain = d ∧
      s'.head r = s.head r ∧ s'.column r = s.column r) ∧
    ∀ a b : Int, 0 ≤ a ∧ 0 ≤ b ∨ a ≤ 0 ∧ b ≤ 0 → ∃ r₁ s₁ r₂ s₂ r₃ s₃,
      outcome (r.shift a) s = (.ok r₁, s₁) ∧ outcome (r₁.shift b) s₁ = (.ok r₂, s₂) ∧
      outcome (r.shift (a + b)) s = (.ok r₃, s₃) ∧
      (s₂.column r₂).toList.map Value.plain = (s₃.column r₃).toList.map Value.plain := by
  have holds : (s.column r).Holds _ _ := ⟨rows, rfl, rfl⟩
  refine ⟨fun offset => ?_, fun a b alike => ?_⟩
  · obtain ⟨c, k', d', w, made, holds', same, _⟩ := holds.shift default offset
    obtain ⟨r', s', ran, valid, rfl, grows, _⟩ := shift_column present inside made
    have length := holds'.length.trans (length_moved.trans holds.length.symm)
    exact ⟨r', s', w, ran, length, valid, holds'.entries, same, grows.head_eq present, grows.column_eq present inside⟩
  · obtain ⟨c₁, k₁, d₁, w₁, made₁, holds₁, same₁, default₁, some⟩ := holds.shift default a
    obtain ⟨r₁, s₁, ran₁, _, rfl, _, present₁, inside₁⟩ := shift_column present inside made₁
    obtain ⟨c₂, k₂, d₂, w₂, made₂, holds₂, same₂, _⟩ := holds₁.shift default₁ b
    obtain ⟨r₂, s₂, ran₂, _, rfl, _⟩ := shift_column present₁ inside₁ made₂
    obtain ⟨c₃, k₃, d₃, w₃, made₃, holds₃, same₃, _⟩ := holds.shift default (a + b)
    obtain ⟨r₃, s₃, ran₃, _, rfl, _⟩ := shift_column present inside made₃
    refine ⟨r₁, s₁, r₂, s₂, r₃, s₃, ran₁, ran₂, ran₃, ?_⟩
    rw [holds₂.entries, holds₃.entries, map_moved, map_moved, map_moved, same₁, same₂, same₃]
    by_cases empty : (s.column r).toList = []
    · rw [empty]
      rfl
    · rw [(some empty).1, moved_moved alike]

theorem shift_moves_back : ∃ s : Store, s.column ⟨0⟩ = ⟨.ints .long #[4, 5, 6], none⟩ ∧
    ∃ r' s', outcome (SeriesRef.shift ⟨0⟩ (-1)) s = (.ok r', s') ∧
      (s'.column r').toList.map Value.plain = [.int 5, .int 6, .int 0] := by
  let s := (Store.alloc {} ⟨.ints .long #[4, 5, 6], none⟩ 2 .plain).2
  obtain ⟨r', s', w, ran, _, _, entries, same, _⟩ :=
    (shift_moves (s := s) (r := ⟨0⟩) (d := .int 0) (by decide) (by decide) rfl rfl).1 (-1)
  refine ⟨s, rfl, r', s', ran, ?_⟩
  rw [entries, map_moved, same]
  rfl

end SeriesRef

end PineEngine
