import Mathlib
import PineEngine.Proofs.Occurrences

/-! # Single values of sources

A source is a series of a column of the market, or of means of its columns, and can also be asked for the value a number
of places before its end. Both ways agree (`sourceAt_agrees`), but the means of more than two columns have no single
values.
-/

namespace PineEngine

open PineEngine.Computation List

namespace Decimal

open Float.Model Float.Model.UnpackedFloat

theorem ofModel_unpack (x : Float) : Float.ofModel (.pack x.toModel.unpack) = x := by
  obtain ⟨bits, valid⟩ := x
  unfold Float.Model.pack Float.Model.unpack
  congr 2
  exact congrArg UInt64.ofBitVec (pack_unpack_of_valid valid)

theorem add_eq {x y : Float} {u w : UnpackedFloat} (fields : x.toModel.unpack = u) (fields' : y.toModel.unpack = w) :
    x + y = Float.ofModel (.pack (UnpackedFloat.add .binary64 u w)) :=
  fields ▸ fields' ▸ rfl

/-- Only a negative zero is not the same after zero was added. -/
theorem zero_add_eq (x : Float) : 0.0 + x = x ∨ x = -0.0 := by
  by_cases negative : x.toModel.unpack = .zero .negative
  · exact .inr (by rw [← ofModel_unpack x, negative]; rfl)
  · left
    have neutral : UnpackedFloat.add .binary64 (.zero .positive) x.toModel.unpack = x.toModel.unpack := by
      cases fields : x.toModel.unpack with
      | zero s => cases s <;> first | rfl | exact absurd fields negative
      | _ => rfl
    rw [add_eq (show (0.0 : Float).toModel.unpack = .zero .positive from rfl) rfl, neutral, ofModel_unpack]

theorem zero_add_add (x y : Float) : 0.0 + x + y = x + y ∨ x = -0.0 ∧ y = -0.0 := by
  obtain same | rfl := zero_add_eq x
  · exact .inl (by rw [same])
  · obtain same | rfl := zero_add_eq y
    · left
      rw [show 0.0 + -0.0 = (0.0 : Float) from rfl, same,
        add_eq (show (-0.0 : Float).toModel.unpack = .zero .negative from rfl) rfl]
      refine (ofModel_unpack y).symm.trans (congrArg _ (congrArg _ ?_))
      cases y.toModel.unpack with
      | zero s => cases s <;> rfl
      | _ => rfl
    · exact .inr ⟨rfl, rfl⟩

end Decimal

namespace Value

variable {v h l : Value}

def isWhole : Value → Bool
  | .int _ => true
  | _ => false

def inRange : Value → Bool
  | .int n => Width.long.holds n
  | .float _ => true
  | _ => false

/-- A cell agrees with a number if it holds it, or the double that it comes to or one that is equal. -/
def Agrees (v e : Value) : Prop :=
  e.plain = v ∨ ∃ x y, v.toFloat = .ok x ∧ e.plain = .float y ∧ (x = y ∨ x == y)

theorem whole_inRange {n : Int} (range : (Value.int n).inRange) : n.natAbs ≤ 2 ^ 63 := by
  obtain ⟨low, high⟩ := Bool.and_eq_true_iff.mp range
  have low : -9223372036854775808 ≤ n := of_decide_eq_true low
  have high : n < 9223372036854775808 := of_decide_eq_true high
  omega

theorem toFloat_int {n : Int} (small : n.natAbs ≤ 2 ^ 64) : ∃ x, (Value.int n).toFloat = .ok x := by
  obtain ⟨x, whole⟩ := Decimal.floatOfInt_ok (n := n) (by omega)
  exact ⟨x, show floatOfInt n = _ by rw [floatOfInt, whole]⟩

theorem toFloat_inRange (range : v.inRange) : ∃ x, v.toFloat = .ok x := by
  cases v with
  | int n => exact toFloat_int (Nat.le_trans (whole_inRange range) (by decide))
  | float x => exact ⟨x, rfl⟩
  | _ => cases range

theorem add_float {y : Float} (range : l.inRange) (read : l.toFloat = .ok y) (x : Float) :
    Value.arith .add (.float x) l = .ok (.float (x + y)) := by
  cases l with
  | int n => exact congrArg (· >>= fun y => .ok (Value.float (x + y))) read
  | float y' => cases read; rfl
  | _ => cases range

theorem mean_agrees (left : h.inRange) (right : l.inRange) :
    ∃ x y, (Value.arith .add h l >>= fun s => Value.arith .div s (.float 2.0)) = .ok (.float x) ∧
      (Value.sum [h, l] >>= fun s => Value.arith .div s (.float (Nat.toFloat 2))) = .ok (.float y) ∧ (x = y ∨ x == y) := by
  obtain ⟨y, read⟩ := toFloat_inRange right
  have half (x : Float) : Value.arith .div (.float x) (.float 2.0) = .ok (.float (x / 2.0)) := rfl
  rw [show Nat.toFloat 2 = 2.0 from rfl]
  cases h with
  | float x =>
    have sum : Value.sum [.float x, l] = .ok (.float (0.0 + x + y)) := by
      show Value.arith .add (.float (0.0 + x)) l >>= pure = _
      rw [add_float right read]
      rfl
    rw [sum, add_float right read, ok_bind, ok_bind, half, half]
    refine ⟨_, _, rfl, rfl, ?_⟩
    obtain same | ⟨rfl, rfl⟩ := Decimal.zero_add_add x y
    · exact .inl (by rw [same])
    · exact .inr (by decide)
  | int a =>
    have sum : Value.sum [.int a, l] = Value.arith .add (.int a) l := by
      show Value.arith .add (.int (0 + a)) l >>= pure = _
      rw [Int.zero_add, bind_pure]
    obtain ⟨z, made⟩ : ∃ z, (Value.arith .add (.int a) l >>= fun s => Value.arith .div s (.float 2.0)) = .ok (.float z) := by
      have small := whole_inRange left
      cases l with
      | int b =>
        have small' := whole_inRange right
        obtain ⟨x, whole⟩ := toFloat_int (n := a + b) (by omega)
        refine ⟨x / 2.0, ?_⟩
        show ((Value.int (a + b)).toFloat >>= fun x => .ok (Value.float (x / 2.0))) = _
        rw [whole]
        rfl
      | float y =>
        obtain ⟨x, whole⟩ := toFloat_int (n := a) (by omega)
        refine ⟨(x + y) / 2.0, ?_⟩
        show ((Value.int a).toFloat >>= fun x => .ok (Value.float (x + y))) >>= _ = _
        rw [whole]
        rfl
      | _ => cases right
    rw [sum, made]
    exact ⟨z, z, rfl, rfl, .inl rfl⟩
  | _ => cases left

end Value

namespace Column

variable {vs : List Value} {v : Value} {i : Nat}

theorem kindOf_numbers (some : vs ≠ []) (range : ∀ v ∈ vs, v.inRange) :
    kindOf vs = bif vs.all Value.isWhole then .int .long else .float := by
  let kind (whole : Bool) : Kind := bif whole then .int .long else .float
  have own {v : Value} (range : v.inRange) : Kind.ofValue v = kind v.isWhole := by
    cases v with
    | int n => exact if_pos range
    | float => rfl
    | _ => cases range
  have joined (a b : Bool) : (kind a).join (kind b) = kind (a && b) := by cases a <;> cases b <;> rfl
  obtain ⟨v, vs, rfl⟩ := exists_cons_of_ne_nil some
  obtain ⟨here, rest⟩ := forall_mem_cons.mp range
  rw [kindOf, own here, all_cons]
  clear some range here
  generalize v.isWhole = b
  induction vs generalizing b with
  | nil => simp [kind]
  | cons v vs ih =>
    obtain ⟨here, rest⟩ := forall_mem_cons.mp rest
    rw [foldl_cons, own here, joined, ih rest, all_cons, Bool.and_assoc]

theorem get_numbers (range : ∀ v ∈ vs, v.inRange) (here : vs[i]? = some v) :
    ∃ c e, ofValues vs = .ok c ∧ c.get i = .ok e ∧ v.Agrees e := by
  have mem := mem_of_getElem? here
  have single (v : Value) (mem : v ∈ vs) : items? v = none := by
    have range := range v mem
    cases v <;> first | rfl | cases range
  have kind := kindOf_numbers (ne_nil_of_mem mem) range
  have entry {c : Column} {k : Kind} {f : Value → Value} (holds : c.Holds k (vs.map f)) : c.get i = .ok (f v) :=
    holds.get (by rw [getElem?_map, here]; rfl)
  cases whole : vs.all Value.isWhole with
  | true =>
    have cells (v : Value) (mem : v ∈ vs) : Cells.cellOf (.int .long) v = .ok v.asCell ∧ v.asCell.plain = v := by
      have range := range v mem
      have whole := all_eq_true.mp whole v mem
      cases v with
      | int n => exact ⟨congrArg (Except.map _) (if_pos range), rfl⟩
      | _ => cases whole
    obtain ⟨c, made, holds⟩ := holds_of_cells (.inr (.inl rfl)) single (kind.trans (by rw [whole]; rfl))
      fun v mem => (cells v mem).1
    exact ⟨c, _, made, entry holds, .inl (cells v mem).2⟩
  | false =>
    choose! x read using fun v mem => Value.toFloat_inRange (range v mem)
    have cells (v : Value) (mem : v ∈ vs) : Cells.cellOf .float v = .ok (.cell (.float (x v))) := by
      have asked : Cells.cellOf .float v = v.toFloat.map fun x => .cell (.float x) := by
        have range := range v mem
        cases v <;> first | rfl | cases range
      rw [asked, read v mem]
      rfl
    obtain ⟨c, made, holds⟩ := holds_of_cells (.inr (.inr rfl)) single (kind.trans (by rw [whole]; rfl)) cells
    exact ⟨c, _, made, entry holds, .inr ⟨_, _, read v mem, rfl, .inl rfl⟩⟩

end Column

namespace Machine

variable {m : Machine} {n k i : Nat}

/-- The times of the bars are those of the market, as they are when a run starts. -/
def Timed (m : Machine) : Prop :=
  ∃ c, m.context = some c ∧ Column.ofValues m.market.candles.time = .ok (m.store.column c.timestamps)

theorem column_at {f : CandleField} (length : (m.market.candles.column f).length = n) (first : 1 ≤ k) (last : k ≤ n) :
    ∃ v, (m.market.candles.column f)[n - k]? = some v ∧ m.market.column f (.int k) = .ok v := by
  have inside : n - k < (m.market.candles.column f).length := by omega
  have place : Column.position? (m.market.candles.column f).length (-(k : Int)) = some (n - k) := by
    rw [Column.position?, if_neg (by omega), if_pos (by omega)]
    congr 1
    omega
  refine ⟨_, getElem?_eq_getElem inside, ?_⟩
  have counts : (Value.int k).isTrue = true := bne_iff_ne.mpr (by omega)
  rw [Market.column, if_pos counts]
  show Value.itemOf _ (-(k : Int)) = _
  rw [Value.itemOf, place]
  simp [inside]

theorem mean_columns {hs ls : List Value} (lengths : hs.length = ls.length) (high : ∀ v ∈ hs, v.inRange)
    (low : ∀ v ∈ ls, v.inRange) : ∃ ys : List Float, meanOf.go [hs, ls] hs.length = .ok (ys.map Value.float) ∧
      ∀ (i : Nat) (h l : Value), hs[i]? = some h → ls[i]? = some l → ∃ x y, ys[i]? = some y ∧
        (Value.arith .add h l >>= fun s => Value.arith .div s (.float 2.0)) = .ok (.float x) ∧ (x = y ∨ x == y) := by
  induction hs generalizing ls with
  | nil => exact ⟨[], rfl, by simp⟩
  | cons h hs ih =>
    obtain ⟨l, ls, rfl⟩ := exists_cons_of_length_eq_add_one lengths.symm
    obtain ⟨here, high⟩ := forall_mem_cons.mp high
    obtain ⟨there, low⟩ := forall_mem_cons.mp low
    obtain ⟨ys, rest, agree⟩ := ih (Nat.succ.inj lengths) high low
    obtain ⟨x, y, single, mean, agrees⟩ := Value.mean_agrees here there
    refine ⟨y :: ys, ?_, fun i => ?_⟩
    · have go : meanOf.go [h :: hs, l :: ls] (hs.length + 1) = (do
          let v ← Value.sum [h, l] >>= fun s => Value.arith .div s (.float (Nat.toFloat 2))
          pure (v :: (← meanOf.go [hs, ls] hs.length))) := (bind_assoc ..).symm
      rw [length_cons, go, mean, ok_bind, rest]
      rfl
    · cases i with
      | zero =>
        rintro _ _ ⟨⟩ ⟨⟩
        exact ⟨x, y, rfl, single, agrees⟩
      | succ i => exact agree i

theorem outcome_ok {α : Type} {e : Except Fault α} {a : α} (h : e = .ok a) (m : Machine) :
    outcome (liftM e : MachineM α) m = (.ok a, m) := by
  rw [outcome_liftM, h]

theorem source_gives {s : Source} (price : s ≠ .time) {vs : List Value} {c : Column}
    (entries : sourceEntries m.market s = .ok vs) (made : Column.ofValues vs = .ok c) :
    ∃ r m', outcome (source s) m = (.ok (.series r), m') ∧ m'.store.column r = c := by
  let m' : Machine := { m with store := (m.store.alloc c ((vs.length : Int) - 1) (.source s)).2 }
  have stored : outcome (sourceSeries s vs) m = (.ok ⟨m.store.series.size⟩, m') := by
    rw [sourceSeries, made]
    rfl
  refine ⟨⟨m.store.series.size⟩, m', ?_, Store.column_alloc m.store ..⟩
  rw [source_eq price, get_bind, bind_ok (outcome_ok entries m), bind_ok stored]
  rfl

/-- On a market whose columns have as many numbers as there are bars: the value of a source a number of places before
    the end agrees with the entry of its series there. Only the means of more than two columns have no such value. -/
theorem sourceAt_agrees (lengths : ∀ f, (m.market.candles.column f).length = n)
    (range : ∀ f, ∀ v ∈ m.market.candles.column f, v.inRange) (timed : m.Timed) (first : 1 ≤ k) (last : k ≤ n)
    (s : Source) :
    if s = .hlc3 ∨ s = .ohlc4 then outcome (sourceAt s (.int k)) m = (.error .operands, m)
    else ∃ v r m' e, outcome (sourceAt s (.int k)) m = (.ok v, m) ∧ outcome (source s) m = (.ok (.series r), m') ∧
      (m'.store.column r).get (n - k : Nat) = .ok e ∧ v.Agrees e := by
  have counts : (Value.int k).isTrue = true := bne_iff_ne.mpr (by omega)
  have single (f : CandleField) := column_at (lengths f) first last
  have asked {f : CandleField} {v : Value} (only : sourceFields s = [f]) (here : m.market.column f (.int k) = .ok v) :
      outcome (sourceAt s (.int k)) m = (.ok v, m) := by
    rw [sourceAt, get_bind, if_pos counts]
    cases s <;> cases only <;> exact outcome_ok here m
  have field (f : CandleField) (only : sourceFields s = [f]) (price : s ≠ .time) : ∃ v r m' e,
      outcome (sourceAt s (.int k)) m = (.ok v, m) ∧ outcome (source s) m = (.ok (.series r), m') ∧
        (m'.store.column r).get (n - k : Nat) = .ok e ∧ v.Agrees e := by
    obtain ⟨v, here, single⟩ := single f
    obtain ⟨c, e, made, got, agrees⟩ := Column.get_numbers (range f) here
    obtain ⟨r, m', given, rfl⟩ := source_gives price (by rw [sourceEntries, only]; rfl) made
    exact ⟨v, r, m', e, asked only single, given, got, agrees⟩
  cases s with
  | «open» | high | low | close => exact field _ rfl (by decide)
  | hlc3 | ohlc4 =>
    rw [if_pos (by decide), sourceAt, get_bind, if_pos counts]
    rfl
  | hl2 =>
    obtain ⟨h, hereH, singleH⟩ := single .high
    obtain ⟨l, hereL, singleL⟩ := single .low
    obtain ⟨ys, mean, agree⟩ := mean_columns ((lengths .high).trans (lengths .low).symm) (range .high) (range .low)
    obtain ⟨x, y, hereY, halved, agrees⟩ := agree _ h l hereH hereL
    have takes (v : Value) (among : v ∈ ys.map Value.float) : Kind.float.Takes v := by
      obtain ⟨x, _, rfl⟩ := mem_map.mp among
      exact ⟨rfl, rfl⟩
    obtain ⟨c, made, holds⟩ := Column.holds_ofValues (.inr (.inr rfl)) takes
    have some : ys.map Value.float ≠ [] := List.ne_nil_of_mem (mem_map_of_mem (List.mem_of_getElem? hereY))
    obtain ⟨r, m', given, rfl⟩ := source_gives (s := .hl2) (by simp) (show meanOf m.market [.high, .low] = _ from mean) made
    refine ⟨.float x, r, m', .cell (.float y), ?_, given, (holds some).get ?_, .inr ⟨x, y, rfl, rfl, agrees⟩⟩
    · obtain ⟨s, sum, halved⟩ := bind_eq_ok halved
      rw [sourceAt, get_bind, if_pos counts]
      refine (bind_ok (outcome_ok singleH m)).trans ((bind_ok (outcome_ok singleL m)).trans ?_)
      exact (bind_ok (outcome_ok sum m)).trans (outcome_ok halved m)
    · simp [hereY, Value.asCell]
  | time =>
    -- The times are a series from the start of the run.
    obtain ⟨c, running, times⟩ := timed
    obtain ⟨v, here, single⟩ := single .time
    obtain ⟨_, e, made, got, agrees⟩ := Column.get_numbers (range .time) here
    cases times.symm.trans made
    refine ⟨v, c.timestamps, m, e, asked rfl single, ?_, got, agrees⟩
    exact (bind_ok (outcome_current running)).trans rfl

def mixed : Market :=
  { candles := Candles.ofColumns fun
      | .time => [.int 0, .int 60]
      | .high => [.int 3, .float 4.5]
      | _ => [.float 1.0, .float 2.0] }

def twoBars : Machine :=
  (outcome reset (new .plain mixed)).2

theorem sourceAt_agrees_twoBars : ∃ v r m' e, outcome (sourceAt .hl2 (.int 1)) twoBars = (.ok v, twoBars) ∧
    outcome (source .hl2) twoBars = (.ok (.series r), m') ∧ (m'.store.column r).get 1 = .ok e ∧ v.Agrees e := by
  have range (f : CandleField) : ∀ v ∈ twoBars.market.candles.column f, v.inRange := by cases f <;> decide
  exact sourceAt_agrees (n := 2) (k := 1) (fun f => by cases f <;> rfl) range ⟨_, rfl, rfl⟩ (by decide)
    (by decide) .hl2

/-- The mean of three columns is a series, but fails as a value. -/
theorem mean_of_three_fails : outcome (sourceAt .hlc3 (.int 1)) twoBars = (.error .operands, twoBars) ∧
    (outcome (source .hlc3) twoBars).1.toOption.isSome :=
  ⟨rfl, by decide +kernel⟩

end Machine

end PineEngine
