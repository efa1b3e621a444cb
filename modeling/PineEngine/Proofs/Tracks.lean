import Mathlib.Data.List.Induction
import Mathlib.Tactic.Ring
import PineEngine.Candles.Archive
import PineEngine.Proofs.Columns
import PineEngine.Proofs.Computation
import PineEngine.Proofs.Keys

/-! # Tables of candles

Candles are kept column by column, and most operations change all columns alike, one after the other. Seen as a
table of rows they change one candle at a time: `Candles.table` gives the columns of rows, and
`Place.outcome_forM` the candles that are left when each column of a list was changed.
-/

namespace PineEngine

variable {fs : List CandleField} {v : Value}

open Computation List Candles

abbrev Candle := CandleField → Value

namespace Value

theorem same_int_iff {r : Value} {n : Int} : r.same (.int n) ↔ r.amount? = some (.ofInt n) := by
  have number (r : Value) : compareNumbers r (.int n) = some .eq ↔ r.amount? = some (.ofInt n) := by
    rw [compareNumbers_eq_iff]
    constructor
    · rintro ⟨x, left, right⟩
      exact left.trans right.symm
    · exact fun left => ⟨_, left, rfl⟩
  cases r <;> simp [same, isNumber, number, amount?]

theorem itemOf_of_getElem? {items : List Value} {k : Nat} (found : items[k]? = some v) :
    itemOf items k = .ok v := by
  obtain ⟨inside, rfl⟩ := List.getElem?_eq_some_iff.mp found
  simp [itemOf, Column.position?, inside]

theorem position?_last (items : List Value) (v : Value) :
    Column.position? (items ++ [v]).length (-1) = some items.length := by
  rw [Column.position?, if_neg (by decide), if_pos (by simp)]
  simp

theorem itemOf_last (items : List Value) (v : Value) : itemOf (items ++ [v]) (-1) = .ok v := by
  rw [itemOf, position?_last]
  simp

theorem setItem_last (items : List Value) (v w : Value) : setItem (items ++ [v]) (-1) w = .ok (items ++ [w]) := by
  rw [setItem, position?_last]
  simp

end Value

namespace Track

theorem set_append (before after : Track) (v : Value) :
    set (before ++ after) before.length v = .ok (before ++ v :: after.drop 1) := by
  cases after with
  | nil => simp [set]
  | cons w after =>
    have inside : ¬ ((before ++ w :: after).length : Int) ≤ before.length := by
      rw [length_append, length_cons]
      omega
    have place : Column.position? (before ++ w :: after).length before.length = some before.length := by
      rw [Column.position?, if_pos (by omega), if_pos (by omega), Int.toNat_natCast]
    rw [set, if_neg inside, Value.setItem, place]
    simp

theorem lastIndex_concat (t : Track) (v w : Value) : lastIndex (t ++ [w]) v = (do
    if ← Value.holds .eq w v then pure (t.length : Int) else t.lastIndex v) := by
  simp [lastIndex, lastIndex.go]

end Track

namespace Candles

@[simp] theorem column_ofColumns (g : CandleField → Track) (f : CandleField) : (ofColumns g).column f = g f := by
  cases f <;> rfl

theorem column_setColumn (c : Candles) (f f' : CandleField) (t : Track) :
    (c.setColumn f t).column f' = if f' = f then t else c.column f' := by
  cases f <;> cases f' <;> rfl

theorem ext_columns {c d : Candles} (same : ∀ f, c.column f = d.column f) : c = d := by
  cases c
  congr
  exacts [same .time, same .open, same .high, same .low, same .close, same .volume]

def table (rows : List Candle) : Candles :=
  ofColumns fun f => rows.map (· f)

@[simp] theorem column_table (rows : List Candle) (f : CandleField) : (table rows).column f = rows.map (· f) :=
  column_ofColumns ..

theorem table_inj {rows rows' : List Candle} (same : table rows = table rows') : rows = rows' := by
  have columns (f : CandleField) : rows.map (· f) = rows'.map (· f) := by
    simpa using congrArg (column · f) same
  have length : rows.length = rows'.length := by simpa using congrArg List.length (columns .time)
  refine ext_getElem length fun i inside inside' => funext fun f => ?_
  have entry := congrArg (·[i]?) (columns f)
  simpa [inside, inside'] using entry

theorem time_table (rows : List Candle) : (table rows).time = rows.map (· .time) := rfl

end Candles

theorem CandleField.mem_all (f : CandleField) : f ∈ all := by
  cases f <;> decide

structure Place (σ : Type) where
  look : σ → Option Candles
  put : σ → Candles → σ
  look_put : ∀ s c, look (put s c) = some c
  put_put : ∀ s c d, put (put s c) d = put s d
  put_self : ∀ s c, look s = some c → put s c = s

namespace Place

variable {σ : Type} {place : Place σ} {act : CandleField → Computation σ PUnit} {before after : CandleField → Track}

theorem outcome_forM (nodup : fs.Nodup)
    (acts : ∀ f ∈ fs, ∀ s c, place.look s = some c → c.column f = before f →
      outcome (act f) s = (.ok ⟨⟩, place.put s (c.setColumn f (after f))))
    {s : σ} {c : Candles} (found : place.look s = some c) (columns : ∀ f ∈ fs, c.column f = before f) :
    outcome (fs.forM act) s =
      (.ok ⟨⟩, place.put s (.ofColumns fun f => if f ∈ fs then after f else c.column f)) := by
  induction fs generalizing s c with
  | nil =>
    have same : Candles.ofColumns (fun f => if f ∈ [] then after f else c.column f) = c :=
      ext_columns fun f => by simp
    rw [same, place.put_self s c found]
    rfl
  | cons f fs ih =>
    obtain ⟨other, nodup⟩ := nodup_cons.mp nodup
    have first := acts f (.head _) s c found (columns f (.head _))
    have kept : ∀ f' ∈ fs, (c.setColumn f (after f)).column f' = before f' := by
      intro f' member
      have apart : f' ≠ f := fun same => other (same ▸ member)
      rw [Candles.column_setColumn, if_neg apart]
      exact columns f' (.tail _ member)
    show outcome (act f >>= fun _ => fs.forM act) s = _
    rw [bind_ok first, ih nodup (fun f' member => acts f' (.tail _ member))
      (place.look_put ..) kept, place.put_put]
    congr 2
    refine ext_columns fun f' => ?_
    rw [column_ofColumns, column_ofColumns, Candles.column_setColumn]
    by_cases same : f' = f <;> simp_all

theorem outcome_forM_table (all : fs.Perm CandleField.all) {rows rows' : List Candle}
    (acts : ∀ f s c, place.look s = some c → c.column f = rows.map (· f) →
      outcome (act f) s = (.ok ⟨⟩, place.put s (c.setColumn f (rows'.map (· f)))))
    {s : σ} (found : place.look s = some (.table rows)) :
    outcome (fs.forM act) s = (.ok ⟨⟩, place.put s (.table rows')) := by
  have nodup : fs.Nodup := all.nodup_iff.mpr (by decide)
  rw [outcome_forM nodup (fun f _ => acts f) found fun f _ => column_table ..]
  have every (f : CandleField) : f ∈ fs := all.mem_iff.mpr f.mem_all
  simp only [every, if_true]
  rfl

end Place

namespace Archive

variable {a : Archive} {c d : Candles} {m n : Int}

/-- The candles that are known for a resolution are those of a table. -/
abbrev Has (a : Archive) (res : Int) (rows : List Candle) : Prop :=
  a.find? (.int res) = some (.table rows)

theorem find?_put_self (a : Archive) (n : Int) (c : Candles) : (a.put (.int n) c).find? (.int n) = some c := by
  have own : (Value.int n).same (.int n) := Value.same_int_iff.mpr rfl
  induction a with
  | nil => simp [put, find?, own]
  | cons entry a ih =>
    unfold put
    split <;> simp_all [find?]

theorem find?_put_ne (a : Archive) (apart : m ≠ n) (c : Candles) :
    (a.put (.int n) c).find? (.int m) = a.find? (.int m) := by
  have other {r : Value} (here : r.same (.int n)) : r.same (.int m) = false := by
    refine Bool.eq_false_iff.mpr fun there => apart ?_
    rw [Value.same_int_iff] at here there
    exact Decimal.Amount.ofInt_inj.mp (Option.some.inj (there.symm.trans here))
  have own : (Value.int n).same (.int n) := Value.same_int_iff.mpr rfl
  induction a with
  | nil => simp [put, find?, other own]
  | cons entry a ih =>
    unfold put
    split
    next here => simp [find?, other here]
    next =>
      cases here : entry.1.same (.int m) <;> simp_all [find?]

theorem put_put (a : Archive) (n : Int) (c d : Candles) : (a.put (.int n) c).put (.int n) d = a.put (.int n) d := by
  have own : (Value.int n).same (.int n) := Value.same_int_iff.mpr rfl
  induction a with
  | nil => simp [put, own]
  | cons entry a ih =>
    simp only [put]
    split <;> simp_all [put]

theorem put_self (found : a.find? (.int n) = some c) : a.put (.int n) c = a := by
  induction a with
  | nil => cases found
  | cons entry a ih =>
    obtain ⟨r, d⟩ := entry
    simp only [put]
    split
    next here =>
      have same : d = c := by simpa [find?, here] using found
      rw [same]
    next apart => rw [ih (by simpa [find?, apart] using found)]

def place (n : Int) : Place Archive where
  look a := a.find? (.int n)
  put a c := a.put (.int n) c
  look_put a c := find?_put_self a n c
  put_put a c d := put_put a n c d
  put_self _ _ := put_self

end Archive

namespace ArchiveM

variable {a : Archive} {c : Candles} {n : Int}

theorem outcome_lift {α : Type} (e : Except Fault α) (a : Archive) : outcome (liftM e : ArchiveM α) a = (e, a) := by
  cases e <;> rfl

theorem outcome_ok_bind {α β : Type} (x : α) (f : α → ArchiveM β) (a : Archive) :
    outcome (liftM (.ok x : Except Fault α) >>= f) a = outcome (f x) a := rfl

theorem outcome_candles (found : a.find? (.int n) = some c) : outcome (candles (.int n)) a = (.ok c, a) := by
  have key : (Value.int n).isKey := rfl
  simp [candles, key, outcome_bind, found]

theorem outcome_setEntry (found : a.find? (.int n) = some c) {f : CandleField} {i : Int} {t : Track}
    (stored : (c.column f).set i v = .ok t) :
    outcome (setEntry (.int n) f i v) a = (.ok ⟨⟩, a.put (.int n) (c.setColumn f t)) := by
  unfold setEntry
  rw [bind_ok (outcome_candles found), stored, outcome_ok_bind]
  rfl

theorem outcome_writeRow {rows after : List Candle} {row : Candle}
    (all : fs.Perm CandleField.all) {act : CandleField → ArchiveM PUnit}
    (acts : ∀ f a, outcome (act f) a = outcome (setEntry (.int n) f rows.length (row f)) a)
    (found : a.Has n (rows ++ after)) :
    outcome (fs.forM act) a = (.ok ⟨⟩, a.put (.int n) (.table (rows ++ row :: after.drop 1))) := by
  have found : (Archive.place n).look a = some (.table (rows ++ after)) := found
  refine Place.outcome_forM_table all (fun f a c found column => ?_) found
  have stored : (c.column f).set rows.length (row f) = .ok ((rows ++ row :: after.drop 1).map (· f)) := by
    simpa [column] using Track.set_append (rows.map (· f)) (after.map (· f)) (row f)
  rw [acts]
  exact outcome_setEntry found stored

end ArchiveM

def Contiguous (first step : Int) (rows : List Candle) : Prop :=
  ∀ (i : Nat) (c : Candle), rows[i]? = some c → c .time = .int (first + step * i)

namespace Contiguous

variable {first step : Int} {rows rest : List Candle} {c : Candle}

theorem nil : Contiguous first step [] := by
  intro i c found
  cases found

theorem cons_iff : Contiguous first step (c :: rows) ↔ c .time = .int first ∧ Contiguous (first + step) step rows := by
  constructor
  · intro whole
    refine ⟨by simpa using whole 0 c rfl, fun i d found => ?_⟩
    rw [whole (i + 1) d (by simpa using found)]
    congr 1
    push_cast
    ring
  · rintro ⟨head, tail⟩ i d found
    cases i with
    | zero =>
      cases found
      simpa using head
    | succ i =>
      rw [tail i d (by simpa using found)]
      congr 1
      push_cast
      ring

theorem append_iff : Contiguous first step (rows ++ rest) ↔
    Contiguous first step rows ∧ Contiguous (first + step * rows.length) step rest := by
  induction rows generalizing first with
  | nil => simp [nil]
  | cons c rows ih =>
    rw [cons_append, cons_iff, cons_iff, ih, and_assoc]
    have place : first + step + step * rows.length = first + step * (c :: rows).length := by
      rw [length_cons]
      push_cast
      ring
    rw [place]

theorem times (whole : Contiguous first step rows) : ∀ c ∈ rows, ∃ t : Int, c .time = .int t := by
  intro c member
  obtain ⟨i, found⟩ := getElem?_of_mem member
  exact ⟨_, whole i c found⟩

theorem eq_of_time (whole : Contiguous first step rows) (pos : 0 < step) {d : Candle} (left : c ∈ rows)
    (right : d ∈ rows) (same : c .time = d .time) : c = d := by
  obtain ⟨i, found⟩ := getElem?_of_mem left
  obtain ⟨j, found'⟩ := getElem?_of_mem right
  have times := Value.int.inj ((whole i c found).symm.trans (same.trans (whole j d found')))
  have place : (i : Int) = j := Int.eq_of_mul_eq_mul_left pos.ne' (Int.add_left_cancel times)
  cases Int.ofNat.inj place
  exact Option.some.inj (found.symm.trans found')

theorem next_iff {z : Candle} {t : Int} (whole : Contiguous first step (rows ++ z :: rest)) (pos : 0 < step)
    (time : z .time = .int t) :
    c ∈ rows ++ z :: rest ∧ c .time = .int (t + step) ↔ rest.head? = some c := by
  have place : t = first + step * rows.length :=
    Value.int.inj (time.symm.trans (cons_iff.mp (append_iff.mp whole).2).1)
  have later : t + step = first + step * (rows.length + 1 : Nat) := by
    rw [place]
    push_cast
    ring
  have after : (rows ++ z :: rest)[rows.length + 1]? = rest.head? := by
    rw [getElem?_append_right (by omega)]
    simp [head?_eq_getElem?]
  rw [later, ← after]
  constructor
  · rintro ⟨member, same⟩
    obtain ⟨i, found⟩ := getElem?_of_mem member
    have times := Value.int.inj ((whole i c found).symm.trans same)
    have index : (i : Int) = (rows.length + 1 : Nat) :=
      Int.eq_of_mul_eq_mul_left pos.ne' (Int.add_left_cancel times)
    exact Int.ofNat.inj index ▸ found
  · exact fun found => ⟨mem_of_getElem? found, whole _ c found⟩

theorem lastIndex_time (whole : Contiguous first step rows) (pos : 0 < step) (k : Nat) :
    Track.lastIndex (rows.map (· .time)) (.int (first + step * k)) =
      .ok (if k < rows.length then (k : Int) else -1) := by
  induction rows using reverseRecOn with
  | nil => rfl
  | append_singleton rows c ih =>
    obtain ⟨before, last⟩ := append_iff.mp whole
    have time := (cons_iff.mp last).1
    rw [map_append, map_singleton, Track.lastIndex_concat, time, Value.holds_ints, ih before]
    have here : first + step * (rows.length : Int) = first + step * k ↔ rows.length = k := by
      rw [add_right_inj, mul_right_inj' pos.ne']
      exact Nat.cast_inj
    simp only [here, length_append, length_singleton, length_map]
    by_cases same : rows.length = k
    · subst same
      simp [pure, Except.pure, bind, Except.bind]
    · have place : k < rows.length + 1 ↔ k < rows.length := by omega
      simp [same, place, bind, Except.bind]

end Contiguous

def flatCandle (t price : Int) : Candle
  | .time => .int t
  | .volume => .int 1
  | _ => .int price

/-- Candles of one price each that follow each other in steps. -/
def flatCandles (t step : Int) : List Int → List Candle
  | [] => []
  | price :: prices => flatCandle t price :: flatCandles (t + step) step prices

theorem flatCandles_contiguous (t step : Int) (prices : List Int) : Contiguous t step (flatCandles t step prices) := by
  induction prices generalizing t with
  | nil => exact .nil
  | cons price prices ih => exact Contiguous.cons_iff.mpr ⟨rfl, ih (t + step)⟩

end PineEngine
