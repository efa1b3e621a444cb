import PineEngine.Proofs.Rounding
import PineEngine.Proofs.Shifting

/-! # Functions of columns on a window and on its first bars

What the functions that read the history of a series make of columns. They make columns of single values of such
columns. They look at no bar after the one they compute: on the first bars of a window they give the first entries of
what they give on all of it, also where the window is too short for them.
-/

namespace PineEngine

open List SeriesRef Column Cells

theorem foldlM_keeps {α ι : Type} {f : α → ι → Except Fault α} {P : α → Prop}
    (each : ∀ {a i a'}, P a → f a i = .ok a' → P a') {is : List ι} {a a' : α} (holds : P a)
    (h : is.foldlM f a = .ok a') : P a' := by
  induction is generalizing a with
  | nil =>
    cases h
    exact holds
  | cons i is ih =>
    obtain ⟨b, here, h⟩ := bind_eq_ok h
    exact ih (each holds here) h

section

variable {α β : Type} {f : α → Nat → Except Fault α} {g : β → Nat → Except Fault β} {R : Nat → α → β → Prop}
  {k n : Nat} {a a' : α} {b : β}
  (together : ∀ i a a' b, i < k → R i a b → f a i = .ok a' → ∃ b', g b i = .ok b' ∧ R (i + 1) a' b')
  (alone : ∀ i a a' b, k ≤ i → i < n → R i a b → f a i = .ok a' → R (i + 1) a' b) (le : k ≤ n)

include together alone le

/-- A loop over places and one over the first of them, with a relation for each number of places done. Where the
    second is done, the first goes on alone. -/
theorem foldlM_first_from (len : Nat) {start : Nat} (count : start + len = n) (related : R start a b)
    (h : (range' start len).foldlM f a = .ok a') :
    ∃ b', (range' start (k - start)).foldlM g b = .ok b' ∧ R n a' b' := by
  induction len generalizing start a b with
  | zero =>
    obtain rfl : start = n := count
    cases h
    rw [Nat.sub_eq_zero_of_le le]
    exact ⟨b, rfl, related⟩
  | succ len ih =>
    obtain ⟨a₁, here, h⟩ := bind_eq_ok h
    by_cases low : start < k
    · obtain ⟨b₁, there, further⟩ := together start a a₁ b low related here
      obtain ⟨b', rest, done⟩ := ih (by omega) further h
      refine ⟨b', ?_, done⟩
      rw [show k - start = k - (start + 1) + 1 by omega, range'_succ, foldlM_cons, there]
      exact rest
    · obtain ⟨b', rest, done⟩ := ih (by omega) (alone start a a₁ b (by omega) (by omega) related here) h
      rw [show k - (start + 1) = 0 by omega] at rest
      rw [show k - start = 0 by omega]
      exact ⟨b', rest, done⟩

theorem foldlM_first (related : R 0 a b) (h : (range n).foldlM f a = .ok a') :
    ∃ b', (range k).foldlM g b = .ok b' ∧ R n a' b' := by
  rw [range_eq_range'] at h ⊢
  exact foldlM_first_from together alone le n (Nat.zero_add n) related h

end

def Kind.isNumber : Kind → Bool
  | .bool | .int _ | .float => true
  | .text _ | .object => false

variable {v d : Value} {vs : List Value} {i : Nat}

theorem kind_of_mem {cs : Cells} (number : cs.kind.isNumber) (mem : v ∈ cs.toList) :
    Kind.ofValue v = cs.kind := by
  cases cs with
  | texts w xs | objects xs => cases number
  | bools xs | ints w xs | floats xs =>
    obtain ⟨x, _, rfl⟩ := mem_map.mp mem
    rfl

theorem number_of_default {kind : Kind} (machine : kind ≠ .object) (default : defaultOf kind = .ok d) :
    kind.isNumber ∧ Kind.ofValue d = kind := by
  unfold defaultOf at default
  split at default <;> cases default
  · exact ⟨rfl, rfl⟩
  · exact ⟨rfl, rfl⟩
  · exact ⟨rfl, rfl⟩
  · exact (machine rfl).elim

theorem default_single {kind : Kind} (h : defaultOf kind = .ok d) : d.isSingle := by
  unfold defaultOf at h
  split at h <;> cases h <;> rfl

namespace Column

variable {n k : Nat} {c c' : Column} {v : Value}

theorem replicate_level (single : v.isSingle) (h : ofValues (List.replicate n v) = .ok c) : c.Level n :=
  length_replicate (n := n) (a := v) ▸ level_ofValues (fun _ mem => eq_of_mem_replicate mem ▸ single) h

theorem replicate_first (single : v.isSingle) (pos : 1 ≤ k) (le : k ≤ n)
    (h : ofValues (List.replicate n v) = .ok c) :
    c.cells.kind = Kind.ofValue v ∧ ofValues (List.replicate k v) = .ok (c.first k) :=
  (ofValues_replicate_first (Value.items_of_single single) pos le h).2

theorem uniform_first {K : Kind} (machine : K ≠ .object) (same : ∀ v ∈ vs, Kind.ofValue v = K) (pos : 1 ≤ k)
    (some : vs ≠ []) (h : ofValues vs = .ok c) :
    c.cells.kind ≠ .object ∧ ofValues (vs.take k) = .ok (c.first k) := by
  have single (v : Value) (mem : v ∈ vs) : items? v = none :=
    Value.items_of_single (Value.single_of_machine (same v mem ▸ machine))
  obtain ⟨_, kind', first⟩ := ofValues_uniform single same pos some h
  exact ⟨kind' ▸ machine, first⟩

theorem shift_level {offset : Int} (level : c.Level n) (h : c.shift offset = .ok c') : c'.Level n := by
  unfold shift at h
  split at h
  · cases h
    exact level
  · obtain ⟨d, default, h⟩ := bind_eq_ok h
    have single := default_single default
    split at h
    · have size : c.size = n := level.size
      rw [size] at h
      exact replicate_level single h
    · exact foldlM_keeps (fun level stored => level.set single stored) (rotate_level level offset) h

theorem shift_first (flat : c.Flat n) (machine : c.cells.kind ≠ .object) (pos : 1 ≤ k) (le : k ≤ n) (offset : Nat)
    (h : c.shift offset = .ok c') :
    c'.cells.kind ≠ .object ∧ (c.first k).shift offset = .ok (c'.first k) := by
  by_cases zero : offset = 0
  · subst zero
    cases h
    exact ⟨machine, rfl⟩
  obtain ⟨d, default⟩ : ∃ d, SeriesRef.defaultOf c.cells.kind = .ok d := by
    rw [shift, if_neg (by simpa using zero)] at h
    obtain ⟨d, default, _⟩ := bind_eq_ok h
    exact ⟨d, default⟩
  have holds : c.Holds c.cells.kind c.cells.toList := ⟨flat.rows, rfl, flat.toList⟩
  obtain ⟨c₁, _, _, w, made, holds₁, _, _, some⟩ := holds.shift default offset
  obtain ⟨c₂, _, _, w', made', holds₂, _, _, some'⟩ := (holds.first k).shift default offset
  cases h.symm.trans made
  have some₁ : c.cells.toList ≠ [] := by
    rw [← length_pos_iff, Cells.length_toList, flat.size]
    omega
  obtain ⟨rfl, stored⟩ := (some some₁).2 machine
  obtain ⟨rfl, stored'⟩ := (some' (take_ne_nil pos some₁)).2 machine
  cases stored.symm.trans stored'
  refine ⟨holds₁.kind ▸ machine, ?_⟩
  rw [made', (holds₁.first k).unique (moved_take .. ▸ holds₂)]

def blank (n : Nat) (c : Column) : Except Fault Column := do
  ofValues (List.replicate n (← SeriesRef.defaultOf c.cells.kind))

theorem blank_level (h : blank n c = .ok c') : c'.Level n := by
  obtain ⟨d, default, h⟩ := bind_eq_ok h
  exact replicate_level (default_single default) h

theorem blank_first (machine : c.cells.kind ≠ .object) (pos : 1 ≤ k) (le : k ≤ n) (h : blank n c = .ok c') :
    c'.cells.kind ≠ .object ∧ blank k (c.first k) = .ok (c'.first k) := by
  obtain ⟨d, default, h⟩ := bind_eq_ok h
  obtain ⟨kind, first⟩ := replicate_first (default_single default) pos le h
  refine ⟨by rwa [kind, (number_of_default machine default).2], ?_⟩
  rw [blank, show (c.first k).cells.kind = c.cells.kind from kind_first .., default]
  exact first

/-- Whether a condition holds at an index; what is not a number counts as zero. -/
def truthAt (c : Column) (i : Int) : Except Fault Bool := do
  match ← c.get i with
  | .cell (.float x) => entryTruth (.cell (.float (finiteFloat x)))
  | v => entryTruth v

theorem truthAt_first (flat : c.Flat n) (le : k ≤ n) (low : i < k) : (c.first k).truthAt i = c.truthAt i := by
  rw [truthAt, truthAt, flat.get_first le low]

theorem Level.truthAt (level : c.Level n) {b : Nat} (low : b < n) : ∃ holds, c.truthAt b = .ok holds := by
  have inside : b < c.cells.toList.length := by
    rw [length_toList]
    exact Nat.lt_of_lt_of_eq low level.size.symm
  have found : c.get b = .ok c.cells.toList[b] := by
    rw [level.toFlat.get, ← toList_getElem?, getElem?_eq_getElem inside]
    rfl
  have single := level.get found
  rw [Column.truthAt, found]
  generalize c.cells.toList[b] = v at single
  cases v with
  | cell v => cases v <;> exact ⟨_, rfl⟩
  | list vs => cases single
  | _ => exact ⟨_, rfl⟩

variable {cond other : Column}

theorem replaceAt_first (flatC : cond.Flat n) (flatO : other.Flat n) (flat : c.Flat n) (le : k ≤ n) (low : i < k)
    (h : replaceAt cond other c i = .ok c') :
    replaceAt (cond.first k) (other.first k) (c.first k) i = .ok (c'.first k) := by
  obtain ⟨t, held, h⟩ := bind_eq_ok h
  rw [replaceAt, holdsAt, flatC.get_first le low, flatO.get_first le low]
  rw [holdsAt] at held
  rw [held]
  cases t with
  | true =>
    cases h
    rfl
  | false =>
    obtain ⟨v, got, stored⟩ := bind_eq_ok h
    rw [got]
    exact flat.set_first le low stored

theorem replaceAt_cases (h : replaceAt cond other c i = .ok c') :
    c' = c ∨ ∃ v, other.get i = .ok v ∧ c.set i v = .ok c' := by
  obtain ⟨t, _, h⟩ := bind_eq_ok h
  cases t with
  | true =>
    cases h
    exact .inl rfl
  | false =>
    obtain ⟨v, got, stored⟩ := bind_eq_ok h
    exact .inr ⟨v, got, stored⟩

theorem replaceUnless_level {places : List Nat} (level : c.Level n) (others : other.Level n)
    (h : replaceUnless cond other places c = .ok c') : c'.Level n := by
  refine foldlM_keeps (fun {c i c'} level h => ?_) level h
  rcases replaceAt_cases h with rfl | ⟨v, got, stored⟩
  · exact level
  · exact level.set (others.get got) stored

theorem replaceUnless_first (flatC : cond.Flat n) (flatO : other.Flat n) (flat : c.Flat n) (le : k ≤ n)
    (h : replaceUnless cond other (range n) c = .ok c') : c'.cells.kind = c.cells.kind ∧
      replaceUnless (cond.first k) (other.first k) (range k) (c.first k) = .ok (c'.first k) := by
  have kept {i : Nat} {d d' : Column} (flat : d.Flat n) (h : replaceAt cond other d i = .ok d') :
      d'.Flat n ∧ d'.cells.kind = d.cells.kind := by
    rcases replaceAt_cases h with rfl | ⟨v, _, stored⟩
    · exact ⟨flat, rfl⟩
    · exact flat.set stored
  refine Exists.elim (foldlM_first (g := replaceAt (cond.first k) (other.first k)) (b := c.first k)
    (R := fun _ d d' => d' = d.first k ∧ d.Flat n ∧ d.cells.kind = c.cells.kind) ?_ ?_ le ⟨rfl, flat, rfl⟩ h) ?_
  · rintro i d d' _ low ⟨rfl, flat, kind⟩ replaced
    obtain ⟨flat', kind'⟩ := kept flat replaced
    exact ⟨_, replaceAt_first flatC flatO flat le low replaced, rfl, flat', kind'.trans kind⟩
  · rintro i d d' _ high _ ⟨rfl, flat, kind⟩ replaced
    obtain ⟨flat', kind'⟩ := kept flat replaced
    refine ⟨?_, flat', kind'.trans kind⟩
    rcases replaceAt_cases replaced with rfl | ⟨v, _, stored⟩
    · rfl
    · exact (flat.first_set high stored).symm
  · rintro _ ⟨done, rfl, _, kind⟩
    exact ⟨kind, done⟩

end Column

namespace Operand

variable {n k : Nat} {x y z : Operand} {c cond : Column}

def kind : Operand → Kind
  | single v => Kind.ofValue v
  | column c => c.cells.kind

/-- An operand as a column: a single value stands at every bar. -/
def asColumn (n : Nat) : Operand → Except Fault Column
  | single v => Column.ofValues (List.replicate n v)
  | column c => .ok c

theorem asColumn_level (level : x.Level n) (h : x.asColumn n = .ok c) : c.Level n := by
  cases x with
  | single v => exact replicate_level level h
  | column d =>
    cases h
    exact level

theorem asColumn_first (level : x.Level n) (pos : 1 ≤ k) (le : k ≤ n) (h : x.asColumn n = .ok c) :
    c.cells.kind = x.kind ∧ (x.first k).asColumn k = .ok (c.first k) := by
  cases x with
  | single v => exact replicate_first level pos le h
  | column d =>
    cases h
    exact ⟨rfl, rfl⟩

end Operand

namespace Indicator

variable {n k : Nat} {c d x source : Column} {y condition : Operand} {found : List Value} {w : Value}

/-- One more bar of `barssince`: the bars counted, and the counts stored so far. -/
def count (condition : Column) (past : Int × Column) (i : Nat) : Except Fault (Int × Column) := do
  let bars := if ← condition.truthAt i then 0 else past.1 + 1
  pure (bars, ← past.2.set i (.int bars))

theorem count_eq_ok {past next : Int × Column} (h : count c past i = .ok next) :
    (∃ held, c.truthAt i = .ok held ∧ next.1 = if held then 0 else past.1 + 1) ∧
      past.2.set i (.int next.1) = .ok next.2 := by
  obtain ⟨held, truth, d, stored, h⟩ := bind₂_eq_ok h
  cases h
  exact ⟨⟨held, truth, rfl⟩, stored⟩

def sinceHeld (n : Nat) : Operand → Except Fault Column
  | .column c => do
    let zeros ← Column.ofValues (List.replicate n (.int 0))
    let (_, counts) ← (range n).foldlM (count c) (0, zeros)
    pure counts
  | .single v =>
    if v.isTrue then Column.ofValues ((range n).map fun (i : Nat) => .int (i + 1))
    else Column.ofValues (List.replicate n (.int 0))

theorem sinceHeld_level (h : sinceHeld n condition = .ok d) : d.Level n := by
  unfold sinceHeld at h
  split at h
  · obtain ⟨zeros, made, last, counted, h⟩ := bind₂_eq_ok h
    cases h
    refine foldlM_keeps (P := fun past => past.2.Level n) (fun {past i next} level h => ?_)
      (replicate_level rfl made) counted
    exact level.set rfl (count_eq_ok h).2
  · split at h
    · have level := level_ofValues (fun v mem => ?_) h
      · simpa using level
      · obtain ⟨i, _, rfl⟩ := mem_map.mp mem
        rfl
    · exact replicate_level rfl h

theorem long_holds (short : n < 2 ^ 63) : Width.long.holds (n : Int) = true := by
  have least : (-9223372036854775808 : Int) ≤ n := by omega
  have most : (n : Int) < 9223372036854775808 := by omega
  exact Bool.and_eq_true_iff.mpr ⟨decide_eq_true least, decide_eq_true most⟩

theorem kind_count (low : i < n) (short : n < 2 ^ 63) : Kind.ofValue (.int ((i : Int) + 1)) = .int .long := by
  have fits : Width.long.holds ((i : Int) + 1) = true := long_holds (n := i + 1) (by omega)
  rw [Kind.ofValue, if_pos fits]

theorem sinceHeld_first (flat : condition.Flat n) (short : n < 2 ^ 63) (pos : 1 ≤ k) (le : k ≤ n)
    (h : sinceHeld n condition = .ok d) :
    d.cells.kind ≠ .object ∧ sinceHeld k (condition.first k) = .ok (d.first k) := by
  have zeros : Kind.ofValue (.int 0) ≠ .object := by decide
  cases condition with
  | column c =>
    obtain ⟨start, made, last, counted, h⟩ := bind₂_eq_ok h
    cases h
    obtain ⟨kind, made'⟩ := replicate_first rfl pos le made
    -- Both loops count alike as long as they go together.
    refine Exists.elim (foldlM_first (g := count (c.first k)) (b := (0, start.first k)) (R := fun i past past' =>
      (past'.2 = past.2.first k ∧ past.2.Flat n ∧ past.2.cells.kind ≠ .object) ∧ (i ≤ k → past'.1 = past.1)) ?_ ?_ le
      ⟨⟨rfl, (replicate_level rfl made).toFlat, kind ▸ zeros⟩, fun _ => rfl⟩ counted) ?_
    · rintro i past next past' low ⟨⟨first, flatP, machine⟩, same⟩ counted
      obtain ⟨⟨held, truth, bars⟩, stored⟩ := count_eq_ok counted
      obtain ⟨flat', kind'⟩ := flatP.set stored
      refine ⟨(next.1, next.2.first k), ?_, ⟨rfl, flat', kind' ▸ machine⟩, fun _ => rfl⟩
      rw [count, truthAt_first flat le low, truth, same (by omega), first]
      show ((past.2.first k).set i (.int (if held then 0 else past.1 + 1)) >>= fun d => pure (_, d)) = _
      rw [← bars, flatP.set_first le low stored]
      rfl
    · rintro i past next past' high _ ⟨⟨first, flatP, machine⟩, _⟩ counted
      have stored := (count_eq_ok counted).2
      obtain ⟨flat', kind'⟩ := flatP.set stored
      exact ⟨⟨first.trans (flatP.first_set high stored).symm, flat', kind' ▸ machine⟩, fun early => by omega⟩
    · rintro last' ⟨counted', ⟨first, _, same⟩, _⟩
      refine ⟨same, ?_⟩
      rw [Operand.first, sinceHeld, made']
      show ((range k).foldlM (count (c.first k)) (0, start.first k) >>= fun last => pure last.2) = _
      rw [counted', ← first]
      rfl
  | single v =>
    rw [sinceHeld] at h
    rw [Operand.first, sinceHeld]
    split at h
    next holds =>
      have counts : ((range n).map fun (i : Nat) => Value.int (i + 1)).take k =
          (range k).map fun (i : Nat) => Value.int (i + 1) := by
        rw [← map_take, take_range, Nat.min_eq_left le]
      rw [if_pos holds, ← counts]
      refine uniform_first (K := .int .long) (by decide) (fun v mem => ?_) pos ?_ h
      · obtain ⟨i, low, rfl⟩ := mem_map.mp mem
        exact kind_count (mem_range.mp low) short
      · exact ne_nil_of_length_pos (by simp; omega)
    next fails =>
      rw [if_neg fails]
      obtain ⟨kind, first⟩ := replicate_first rfl pos le h
      exact ⟨kind ▸ zeros, first⟩

/-- The test for a crossing at a bar, on the entries of the bar and on those of the bar before. -/
def testAt (test : (now before : Value × Value) → Except Fault Value) (x y : Column) (i : Nat) : Except Fault Value := do
  let x1 ← x.get i
  let y1 ← y.get i
  let x2 ← x.get ((i : Int) - 1)
  let y2 ← y.get ((i : Int) - 1)
  test (x1, y1) (x2, y2)

def uncrossed (n : Nat) : Except Fault Column := do
  (← Column.ofValues (List.replicate n (.int 0))).set 0 (.bool false)

def crossings (n : Nat) (test : (now before : Value × Value) → Except Fault Value) (x : Column) (y : Operand) :
    Except Fault Column := do
  let y ← y.asColumn n
  let start ← uncrossed n
  (range' 1 (n - 1)).foldlM (fun (found : Column) (i : Nat) => do found.set i (← testAt test x y i)) start

/-- The crossings of two columns at the first `last` bars. -/
def marked (n last : Nat) (test : (now before : Value × Value) → Except Fault Value) (x y : Column) :
    Except Fault Column := do
  (range' 1 (last - 1)).foldlM (fun (found : Column) (i : Nat) => do found.set i (← testAt test x y i)) (← uncrossed n)

theorem uncrossed_level (h : uncrossed n = .ok c) : c.Level n := by
  obtain ⟨zeros, made, stored⟩ := bind_eq_ok h
  exact (replicate_level rfl made).set (i := 0) rfl stored

theorem uncrossed_first (pos : 1 ≤ k) (le : k ≤ n) (h : uncrossed n = .ok c) :
    c.cells.kind ≠ .object ∧ uncrossed k = .ok (c.first k) := by
  obtain ⟨zeros, made, stored⟩ := bind_eq_ok h
  obtain ⟨kind, made'⟩ := replicate_first rfl pos le made
  have flat : zeros.Flat n := (replicate_level rfl made).toFlat
  refine ⟨by rw [(flat.set (i := 0) stored).2, kind]; decide, ?_⟩
  rw [uncrossed, made']
  exact flat.set_first le (i := 0) pos stored

variable {test : (now before : Value × Value) → Except Fault Value}

theorem testAt_first {y : Column} (flat : x.Flat n) (flatY : y.Flat n) (le : k ≤ n) (later : 1 ≤ i) (low : i < k) :
    testAt test (x.first k) (y.first k) i = testAt test x y i := by
  have earlier : (i : Int) - 1 = (i - 1 : Nat) := by omega
  rw [testAt, testAt, earlier, flat.get_first le low, flatY.get_first le low, flat.get_first le (by omega),
    flatY.get_first le (by omega)]

theorem crossings_level (single : ∀ {now before v}, test now before = .ok v → v.isSingle)
    (h : crossings n test x y = .ok d) : d.Level n := by
  obtain ⟨_, _, start, made, h⟩ := bind₂_eq_ok h
  refine foldlM_keeps (fun level h => ?_) (uncrossed_level made) h
  obtain ⟨v, tested, stored⟩ := bind_eq_ok h
  obtain ⟨_, _, _, _, tested⟩ := bind₂_eq_ok tested
  obtain ⟨_, _, _, _, tested⟩ := bind₂_eq_ok tested
  exact level.set (single tested) stored

theorem crossings_first (flat : x.Flat n) (level : y.Level n) (pos : 1 ≤ k) (le : k ≤ n)
    (h : crossings n test x y = .ok d) :
    d.cells.kind ≠ .object ∧ crossings k test (x.first k) (y.first k) = .ok (d.first k) := by
  obtain ⟨y', asked, start, made, h⟩ := bind₂_eq_ok h
  obtain ⟨_, asked'⟩ := Operand.asColumn_first level pos le asked
  obtain ⟨machine, made'⟩ := uncrossed_first pos le made
  have flatY := (Operand.asColumn_level level asked).toFlat
  refine Exists.elim (foldlM_first_from
    (g := fun (found : Column) (i : Nat) => do found.set i (← testAt test (x.first k) (y'.first k) i)) (b := start.first k)
    (R := fun i d d' => 1 ≤ i ∧ d' = d.first k ∧ d.Flat n ∧ d.cells.kind ≠ .object) ?_ ?_ le (n - 1) (by omega)
    ⟨Nat.le_refl 1, rfl, (uncrossed_level made).toFlat, machine⟩ h) ?_
  · rintro i d d' _ low ⟨later, rfl, flatD, machine⟩ crossed
    obtain ⟨v, tested, stored⟩ := bind_eq_ok crossed
    obtain ⟨flat', kind'⟩ := flatD.set stored
    refine ⟨d'.first k, ?_, by omega, rfl, flat', kind' ▸ machine⟩
    rw [testAt_first flat flatY le later low, tested]
    exact flatD.set_first le low stored
  · rintro i d d' _ high _ ⟨later, rfl, flatD, machine⟩ crossed
    obtain ⟨v, _, stored⟩ := bind_eq_ok crossed
    obtain ⟨flat', kind'⟩ := flatD.set stored
    exact ⟨by omega, (flatD.first_set high stored).symm, flat', kind' ▸ machine⟩
  · rintro _ ⟨done, _, rfl, _, machine⟩
    refine ⟨machine, ?_⟩
    rw [crossings, asked', made']
    exact done

/-- One more bar of `valuewhen`: the entries where the condition held, and the values found, so far. -/
def remember (condition source : Column) (d : Value) (occurrence : Int) (past : List Value × List Value) (i : Nat) :
    Except Fault (List Value × List Value) := do
  let held ← if ← condition.truthAt i then do pure (past.1 ++ [← source.get i]) else pure past.1
  let v ← if occurrence < (held.length : Int) then Value.itemOf held (-occurrence - 1) else pure d
  pure (held, past.2 ++ [v])

variable {i occurrence : Int} {substitute : Value} {x : Float} {left right : Nat} {larger : Bool}

theorem itemOf_mem {items : List Value} (h : Value.itemOf items i = .ok v) : v ∈ items := by
  unfold Value.itemOf at h
  split at h
  next place _ =>
    split at h
    next found =>
      cases h
      exact mem_of_getElem? found
    next => cases h
  next => cases h

section Remembered

variable {condition : Column} {d : Value} {past next : List Value × List Value} {i : Nat}
  (h : remember condition source d occurrence past i = .ok next)

include h

theorem remember_eq_ok :
    (∀ w ∈ next.1, w ∈ past.1 ∨ source.get i = .ok w) ∧ ∃ v, next.2 = past.2 ++ [v] ∧ (v ∈ next.1 ∨ v = d) := by
  have found (held : List Value) (h : (if occurrence < (held.length : Int) then do
        let v ← Value.itemOf held (-occurrence - 1)
        pure (held, past.2 ++ [v])
      else do
        let v ← pure d
        pure (held, past.2 ++ [v]) : Except Fault (List Value × List Value)) = .ok next) :
      next.1 = held ∧ ∃ v, next.2 = past.2 ++ [v] ∧ (v ∈ held ∨ v = d) := by
    split at h
    · obtain ⟨v, item, h⟩ := bind_eq_ok h
      cases h
      exact ⟨rfl, v, rfl, .inl (itemOf_mem item)⟩
    · cases h
      exact ⟨rfl, d, rfl, .inr rfl⟩
  obtain ⟨held, _, h⟩ := bind_eq_ok h
  cases held
  · obtain ⟨same, v, appended, from_⟩ := found past.1 h
    exact ⟨fun w mem => .inl (same ▸ mem), v, appended, same ▸ from_⟩
  · obtain ⟨w, got, h⟩ := bind_eq_ok h
    obtain ⟨same, v, appended, from_⟩ := found (past.1 ++ [w]) h
    refine ⟨fun u mem => ?_, v, appended, same ▸ from_⟩
    rw [same] at mem
    rcases mem_append.mp mem with old | new
    · exact .inl old
    · cases mem_singleton.mp new
      exact .inr got

theorem remember_keeps {P : Value → Prop} (default : P d) (entries : ∀ v, source.get i = .ok v → P v)
    (old : past.2.length = i ∧ ∀ v, v ∈ past.1 ∨ v ∈ past.2 → P v) :
    next.2.length = i + 1 ∧ ∀ v, v ∈ next.1 ∨ v ∈ next.2 → P v := by
  obtain ⟨length, old⟩ := old
  obtain ⟨held, v, known, from_⟩ := remember_eq_ok h
  refine ⟨by rw [known, length_append, length]; rfl, ?_⟩
  have kept (w : Value) (mem : w ∈ next.1) : P w :=
    (held w mem).elim (fun before => old w (.inl before)) (entries w)
  rintro w (mem | mem)
  · exact kept w mem
  · rw [known, mem_append, mem_singleton] at mem
    rcases mem with before | rfl
    · exact old w (.inr before)
    · exact from_.elim (kept w) (· ▸ default)

end Remembered

def heldValues (n : Nat) (condition : Operand) (source : Column) (occurrence : Int) : Except Fault Column :=
  match condition with
  | .column c => do
    let d ← SeriesRef.defaultOf source.cells.kind
    let (_, known) ← (range n).foldlM (remember c source d occurrence) ([], [])
    Column.ofValues known
  | .single v => if v.isTrue then .error .member else source.blank n

theorem remembered {condition : Column} {d : Value} {last : List Value × List Value} (level : source.Level n)
    (single : d.isSingle) (found : (range n).foldlM (remember condition source d occurrence) ([], []) = .ok last) :
    last.2.length = n ∧ ∀ v ∈ last.2, v.isSingle := by
  refine Exists.elim (foldlM_first (k := n) (g := remember condition source d occurrence) (b := ([], []))
    (R := fun i past past' => past' = past ∧ past.2.length = i ∧ ∀ v, v ∈ past.1 ∨ v ∈ past.2 → v.isSingle) ?_
    (by omega) (Nat.le_refl n) ⟨rfl, rfl, by simp⟩ found) ?_
  · rintro i past next _ _ ⟨rfl, singles⟩ h
    exact ⟨next, h, rfl, remember_keeps h single (fun v got => level.get got) singles⟩
  · rintro _ ⟨_, rfl, length, singles⟩
    exact ⟨length, fun v mem => singles v (.inr mem)⟩

theorem heldValues_level (level : source.Level n) (h : heldValues n condition source occurrence = .ok c) :
    c.Level n := by
  cases condition with
  | single v =>
    rw [heldValues] at h
    split at h
    · cases h
    · exact blank_level h
  | column cond =>
    obtain ⟨d, default, last, found, made⟩ := bind₂_eq_ok h
    obtain ⟨length, singles⟩ := remembered level (default_single default) found
    exact length ▸ level_ofValues singles made

theorem heldValues_first (flatC : condition.Flat n) (flat : source.Flat n) (machine : source.cells.kind ≠ .object)
    (pos : 1 ≤ k) (le : k ≤ n) (h : heldValues n condition source occurrence = .ok c) :
    c.cells.kind ≠ .object ∧
      heldValues k (condition.first k) (source.first k) occurrence = .ok (c.first k) := by
  have kind : (source.first k).cells.kind = source.cells.kind := kind_first ..
  cases condition with
  | single v =>
    rw [heldValues] at h
    rw [Operand.first, heldValues]
    split at h
    · cases h
    next fails =>
      rw [if_neg fails]
      exact blank_first machine pos le h
  | column cond =>
    obtain ⟨d, default, last, found, made⟩ := bind₂_eq_ok h
    obtain ⟨number, same⟩ := number_of_default machine default
    -- What is found so far is of the kind of the source, and on fewer bars the first of it is found.
    have kinds (i : Nat) (v : Value) (got : source.get i = .ok v) : Kind.ofValue v = source.cells.kind :=
      kind_of_mem number (flat.mem_of_get got)
    refine Exists.elim (foldlM_first (g := remember (cond.first k) (source.first k) d occurrence) (b := ([], []))
      (R := fun i past past' =>
        (past.2.length = i ∧ ∀ v, v ∈ past.1 ∨ v ∈ past.2 → Kind.ofValue v = source.cells.kind) ∧
        past'.2 = past.2.take k ∧ (i ≤ k → past' = past)) ?_ ?_ le ⟨⟨rfl, by simp⟩, by simp, fun _ => rfl⟩ found) ?_
    · rintro i past next past' low ⟨before, _, together⟩ h
      cases together (by omega)
      have after := remember_keeps h same (kinds i) before
      refine ⟨next, ?_, after, (take_of_length_le (by omega)).symm, fun _ => rfl⟩
      rw [remember, truthAt_first flatC le low, flat.get_first le low]
      exact h
    · rintro i past next past' high _ ⟨before, first, _⟩ h
      obtain ⟨_, v, known, _⟩ := remember_eq_ok h
      refine ⟨remember_keeps h same (kinds i) before, ?_, fun early => by omega⟩
      rw [first, known, take_append_of_le_length (by omega)]
    · rintro last' ⟨found', ⟨length, kinds⟩, first, _⟩
      have some : last.2 ≠ [] := ne_nil_of_length_pos (by omega)
      obtain ⟨kind', made'⟩ :=
        uniform_first machine (fun v mem => kinds v (.inr mem)) pos some made
      refine ⟨kind', ?_⟩
      rw [Operand.first, heldValues, kind, default]
      show ((range k).foldlM (remember (cond.first k) (source.first k) d occurrence) ([], []) >>=
        fun last => Column.ofValues last.2) = _
      rw [found', ← made', ← first]
      rfl

def orElse (substitute v : Value) : Except Fault Value := do
  pure (if ← v.isNaN then substitute else v)

/-- The entries of a column with a substitute for what is not a number. -/
def substituted (substitute : Value) (c : Column) : Except Fault Column := do
  Column.ofValues (← c.toList.mapM (orElse substitute))

theorem orElse_single (single : substitute.isSingle) (single' : v.isSingle)
    (h : orElse substitute v = .ok w) : w.isSingle := by
  obtain ⟨notNumber, _, h⟩ := bind_eq_ok h
  cases h
  split
  · exact single
  · exact single'

theorem substitutes (single : substitute.isSingle) (level : c.Level n)
    (computed : c.cells.toList.mapM (orElse substitute) = .ok vs) : vs.length = n ∧ ∀ v ∈ vs, v.isSingle := by
  refine ⟨(length_of_mapM computed).trans ((length_toList _).trans level.size), fun v mem => ?_⟩
  obtain ⟨u, member, found⟩ := mem_of_mapM computed mem
  exact orElse_single single (level.single u member) found

theorem substituted_level (single : substitute.isSingle) (level : c.Level n)
    (h : substituted substitute c = .ok d) : d.Level n := by
  obtain ⟨vs, computed, made⟩ := bind_eq_ok h
  rw [level.toFlat.toList] at computed
  obtain ⟨length, singles⟩ := substitutes single level computed
  exact length ▸ level_ofValues singles made

theorem kind_orElse {cs : Cells} (machine : cs.kind ≠ .object) (mem : v ∈ cs.toList)
    (h : orElse (.float x) v = .ok w) : Kind.ofValue w = cs.kind := by
  obtain ⟨notNumber, tested, h⟩ := bind_eq_ok h
  cases h
  cases cs with
  | objects xs => exact (machine rfl).elim
  | texts width xs =>
    obtain ⟨text, _, rfl⟩ := mem_map.mp mem
    cases tested
  | floats xs =>
    obtain ⟨y, _, rfl⟩ := mem_map.mp mem
    cases notNumber <;> rfl
  | ints width xs =>
    obtain ⟨i, _, rfl⟩ := mem_map.mp mem
    obtain ⟨y, converted, rfl⟩ := map_eq_ok tested
    have converted : Value.floatOfInt i = .ok y := converted
    unfold Value.floatOfInt at converted
    split at converted <;> cases converted
    next found => rw [Decimal.isNaN_floatOfInt found]; rfl
  | bools xs =>
    obtain ⟨b, _, rfl⟩ := mem_map.mp mem
    have number : (if b then (1.0 : Float) else 0.0).isNaN = false := by cases b <;> decide
    cases tested
    rw [number]
    rfl

theorem substituted_first (flat : c.Flat n) (machine : c.cells.kind ≠ .object) (pos : 1 ≤ k) (le : k ≤ n)
    (h : substituted (.float x) c = .ok d) :
    d.cells.kind ≠ .object ∧ substituted (.float x) (c.first k) = .ok (d.first k) := by
  obtain ⟨vs, computed, made⟩ := bind_eq_ok h
  rw [flat.toList] at computed
  have length : vs.length = n := (length_of_mapM computed).trans ((length_toList _).trans flat.size)
  have kinds (v : Value) (mem : v ∈ vs) : Kind.ofValue v = c.cells.kind := by
    obtain ⟨u, member, found⟩ := mem_of_mapM computed mem
    exact kind_orElse machine member found
  obtain ⟨kind, made'⟩ := uniform_first machine kinds pos (ne_nil_of_length_pos (by omega)) made
  refine ⟨kind, ?_⟩
  rw [substituted, (flat.first le).toList, Column.first, toList_first, mapM_take computed]
  exact made'

theorem slice_natCast {α : Type} (xs : List α) (start stop : Nat) :
    slice xs (start : Int) stop = (xs.take stop).drop start := by
  have clip (i : Nat) : (if (i : Int) < 0 then ((i : Int) + xs.length).toNat else min (i : Int).toNat xs.length) =
      min i xs.length := by
    rw [if_neg (by omega), Int.toNat_natCast]
  simp only [slice, clip]
  by_cases low : start ≤ xs.length
  · rw [Nat.min_eq_left low, ← take_take, take_length]
  · rw [drop_eq_nil_of_le (by simp; omega), drop_eq_nil_of_le (by simp; omega)]

theorem range_split {k n : Nat} (le : k ≤ n) : range' 0 k ++ range' k (n - k) = range n := by
  rw [range_eq_range', ← Nat.add_sub_of_le le, ← range'_append_1]
  simp

theorem slice_range (f : Nat → Value) {first last n : Nat} (le : last ≤ n) :
    slice ((range n).map f) first last = (range' first (last - first)).map f := by
  rw [slice_natCast, ← map_take, ← map_drop, take_range, Nat.min_eq_left le, range_eq_range',
    drop_range', Nat.zero_add, Nat.mul_one]

/-- The entry at a position if no other entry of its neighbourhood is better, else no number. -/
def peak (larger : Bool) (c : Column) (left right i : Int) : Except Fault Value := do
  let v ← c.get i
  let best ← extremeOf larger (slice c.toList (i - left) (i + right))
  let same ← Value.compare .eq v best
  pure (if same.isTrue then v else .float notANumber)

def centres (n left right : Int) : List Int :=
  (range (n - right - left).toNat).map fun (j : Nat) => left + (j : Int)

/-- The pivots of a column, moved on by the bars that they wait for; a window that is too short has none. -/
def pivots (larger : Bool) (c : Column) (left right : Int) : Except Fault Column :=
  if (c.length : Int) < left + right + 1 then Column.ofValues (List.replicate c.length (.float notANumber))
  else do
    let found ← (centres c.length left right).mapM (peak larger c left right)
    Column.ofValues (List.replicate (left + right).toNat (.float notANumber) ++ found)

theorem mem_centres (mem : i ∈ centres n left right) : ∃ j : Nat, i = (left + j : Nat) ∧ left + j + right < n := by
  obtain ⟨j, low, rfl⟩ := mem_map.mp mem
  have low := mem_range.mp low
  exact ⟨j, by omega, by omega⟩

theorem centres_first (le : k ≤ n) (left right : Nat) :
    centres k left right = (centres n left right).take (k - right - left) := by
  rw [centres, centres, ← map_take, take_range, Nat.min_eq_left (by omega),
    show ((k : Int) - right - left).toNat = k - right - left by omega]

theorem length_peaks (h : (centres n left right).mapM (peak larger c left right) = .ok vs) :
    vs.length = n - right - left := by
  rw [length_of_mapM h, centres, length_map, length_range]
  omega

theorem peaks_single (level : c.Level n) (wide : ¬ (n : Int) < left + right + 1)
    (computed : (centres n left right).mapM (peak larger c left right) = .ok found) :
    (List.replicate (left + right : Int).toNat (Value.float notANumber) ++ found).length = n ∧
      ∀ v ∈ List.replicate (left + right : Int).toNat (Value.float notANumber) ++ found, v.isSingle := by
  constructor
  · rw [length_append, length_replicate, length_peaks computed]
    omega
  · intro v mem
    rcases mem_append.mp mem with gap | member
    · cases eq_of_mem_replicate gap
      rfl
    · obtain ⟨i, place, here⟩ := mem_of_mapM computed member
      obtain ⟨j, rfl, _⟩ := mem_centres place
      obtain ⟨x, got, best, _, here⟩ := bind₂_eq_ok here
      obtain ⟨same, _, here⟩ := bind_eq_ok here
      cases here
      split
      · exact level.get got
      · rfl

theorem pivots_level (level : c.Level n) (h : pivots larger c left right = .ok d) : d.Level n := by
  rw [pivots, level.toFlat.length] at h
  split at h
  · exact replicate_level rfl h
  next wide =>
    obtain ⟨found, computed, made⟩ := bind_eq_ok h
    obtain ⟨length, singles⟩ := peaks_single level wide computed
    exact length ▸ level_ofValues singles made

theorem neighbourhood_eq (flat : c.Flat n) {j : Nat} :
    slice c.toList ((left + j : Nat) - (left : Int)) ((left + j : Nat) + (right : Int)) =
      (c.cells.toList.take (left + j + right)).drop j := by
  have start : ((left + j : Nat) : Int) - left = j := by omega
  have stop : ((left + j : Nat) : Int) + right = (left + j + right : Nat) := by omega
  rw [start, stop, slice_natCast, flat.toList]

theorem peak_first (flat : c.Flat n) (le : k ≤ n) (larger : Bool) (mem : i ∈ centres k left right) :
    peak larger (c.first k) left right i = peak larger c left right i := by
  obtain ⟨j, rfl, inside⟩ := mem_centres mem
  rw [peak, peak, flat.get_first le (by omega), neighbourhood_eq flat, neighbourhood_eq (flat.first le), Column.first,
    toList_first, take_take, Nat.min_eq_left (by omega)]

theorem peak_number (flat : c.Flat n) (machine : c.cells.kind ≠ .object) (mem : i ∈ centres n left right)
    (h : peak larger c left right i = .ok v) : 0 < left + right ∧ (Kind.ofValue v).isNumber := by
  obtain ⟨j, rfl, inside⟩ := mem_centres mem
  obtain ⟨w, got, best, extreme, h⟩ := bind₂_eq_ok h
  obtain ⟨same, _, h⟩ := bind_eq_ok h
  rw [neighbourhood_eq flat] at extreme
  obtain ⟨u, us, some⟩ : ∃ u us, (c.cells.toList.take (left + j + right)).drop j = u :: us := by
    cases around : (c.cells.toList.take (left + j + right)).drop j with
    | nil =>
      rw [around] at extreme
      cases extreme
    | cons u us => exact ⟨u, us, rfl⟩
  have member : u ∈ c.cells.toList :=
    mem_of_mem_take (mem_of_mem_drop (i := j) (some ▸ mem_cons_self ..))
  have number : c.cells.kind.isNumber := by
    cases cells : c.cells with
    | objects xs => exact (machine (congrArg Cells.kind cells)).elim
    | texts w xs =>
      rw [cells] at member
      obtain ⟨text, _, rfl⟩ := mem_map.mp member
      rw [some] at extreme
      cases extreme
    | bools xs | ints w xs | floats xs => rfl
  refine ⟨?_, ?_⟩
  · have length := congrArg List.length some
    simp only [length_drop, length_take, length_cons] at length
    omega
  · cases h
    split
    · rw [kind_of_mem number (flat.mem_of_get got)]
      exact number
    · rfl

theorem kindOf_number (numbers : ∀ v ∈ vs, (Kind.ofValue v).isNumber) : kindOf (.float x :: vs) = .float := by
  show vs.foldl (fun kind v => Kind.join kind (Kind.ofValue v)) Kind.float = Kind.float
  induction vs with
  | nil => rfl
  | cons v vs ih =>
    have joined : Kind.float.join (Kind.ofValue v) = .float := by
      have number := numbers v (.head _)
      cases kind : Kind.ofValue v with
      | text w | object =>
        rw [kind] at number
        cases number
      | bool | int w | float => rfl
    rw [foldl_cons, joined]
    exact ih fun w mem => numbers w (.tail _ mem)

theorem padded_first {gaps : Nat} (wide : 0 < gaps) (pos : 1 ≤ k)
    (numbers : ∀ v ∈ found, (Kind.ofValue v).isNumber)
    (made : Column.ofValues (List.replicate gaps (Value.float x) ++ found) = .ok c) : c.cells.kind ≠ .object ∧
      Column.ofValues ((List.replicate gaps (Value.float x) ++ found).take k) = .ok (c.first k) := by
  obtain ⟨gaps, rfl⟩ := Nat.exists_eq_add_of_le' wide
  obtain ⟨k, rfl⟩ := Nat.exists_eq_add_of_le' pos
  have all (v : Value) (mem : v ∈ List.replicate gaps (Value.float x) ++ found) : (Kind.ofValue v).isNumber := by
    rcases mem_append.mp mem with gap | member
    · cases eq_of_mem_replicate gap
      rfl
    · exact numbers v member
  have whole := kindOf_number (x := x) all
  have part := kindOf_number (x := x) fun v mem => all v (mem_of_mem_take (i := k) mem)
  have single (v : Value) (mem : v ∈ Value.float x :: (List.replicate gaps (Value.float x) ++ found)) :
      Column.items? v = none := by
    rcases mem_cons.mp mem with rfl | mem
    · rfl
    · have number := all v mem
      cases v with
      | list items => cases number
      | _ => rfl
  obtain ⟨_, kind, first⟩ := ofValues_first (k := k + 1) single (part.trans whole.symm) made
  exact ⟨by rw [kind, whole]; nofun, first⟩

theorem pivots_first (flat : c.Flat n) (machine : c.cells.kind ≠ .object) (pos : 1 ≤ k) (le : k ≤ n)
    (h : pivots larger c left right = .ok d) :
    d.cells.kind ≠ .object ∧ pivots larger (c.first k) left right = .ok (d.first k) := by
  have nones : ((left : Int) + right).toNat = left + right := by omega
  rw [pivots, flat.length] at h
  rw [pivots, (flat.first le).length]
  split at h
  next short =>
    rw [if_pos (by omega)]
    obtain ⟨kind, first⟩ := replicate_first rfl pos le h
    exact ⟨by rw [kind]; decide, first⟩
  next long =>
    obtain ⟨found, computed, made⟩ := bind_eq_ok h
    have length := length_peaks computed
    have numbers (v : Value) (mem : v ∈ found) : 0 < left + right ∧ (Kind.ofValue v).isNumber := by
      obtain ⟨i, member, here⟩ := mem_of_mapM computed mem
      exact peak_number flat machine member here
    have wide : 0 < left + right := (numbers _ (getElem_mem (by omega : 0 < found.length))).1
    obtain ⟨kind, first⟩ := padded_first wide pos (fun v mem => (numbers v mem).2) made
    refine ⟨kind, ?_⟩
    rw [← first]
    split
    next few =>
      rw [take_append_of_le_length (by simp; omega), take_replicate, Nat.min_eq_left (by omega)]
    next many =>
      have cut : (List.replicate (left + right) (Value.float notANumber) ++ found).take k =
          List.replicate (left + right) (.float notANumber) ++ found.take (k - right - left) := by
        rw [take_append, take_of_length_le (by simp; omega), length_replicate,
          show k - (left + right) = k - right - left by omega]
      rw [cut, mapM_congr fun i mem => peak_first flat le larger mem, centres_first le, mapM_take computed]
      rfl

end Indicator

end PineEngine
