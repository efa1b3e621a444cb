import PineEngine.Proofs.Relaying

/-! # Merging candles

New candles are written over the stored ones from a place on: from the stored candle of their first time, or from the
beginning if no stored candle has this time (`MergesAt`). So all of them are there afterwards, but what they are written
over is lost. The candles are still in order, with all older ones in front, exactly if the first time was stored and the
new candles end before the stored one that follows them (`update_merged_iff`). New candles that only continue the stored
ones replace the oldest of them (`update_continuing_loses`).
-/

namespace PineEngine

open Computation List

def Candle.Before (c d : Candle) : Prop :=
  ∃ s t : Int, c .time = .int s ∧ d .time = .int t ∧ s < t

structure Ordered (rows : List Candle) : Prop where
  times : ∀ c ∈ rows, ∃ t : Int, c .time = .int t
  before : rows.Pairwise Candle.Before

variable {c d e : Candle} {rows new pre rest result : List Candle} {t : Int}

namespace Candle.Before

theorem irrefl (c : Candle) : ¬ c.Before c := by
  rintro ⟨s, t, left, right, less⟩
  cases left.symm.trans right
  exact absurd less (Int.lt_irrefl s)

theorem trans (first : c.Before d) (second : d.Before e) : c.Before e := by
  obtain ⟨s, t, timeC, timeD, less⟩ := first
  obtain ⟨t', u, timeD', timeE, less'⟩ := second
  cases timeD.symm.trans timeD'
  exact ⟨s, u, timeC, timeE, Int.lt_trans less less'⟩

theorem asymm (first : c.Before d) : ¬ d.Before c :=
  fun second => irrefl c (first.trans second)

theorem congr_right (same : d .time = e .time) (before : c.Before d) : c.Before e := by
  rw [Before, same] at before
  exact before

end Candle.Before

namespace Ordered

theorem sublist (ordered : Ordered rows) (part : pre.Sublist rows) : Ordered pre :=
  ⟨fun c member => ordered.times c (part.subset member), ordered.before.sublist part⟩

theorem cons_before (ordered : Ordered (d :: rest)) (member : e ∈ rest) : d.Before e :=
  (pairwise_cons.mp ordered.before).1 e member

theorem not_before_first (ordered : Ordered (d :: rest)) (member : e ∈ d :: rest) : ¬ e.Before d := by
  obtain rfl | later := mem_cons.mp member
  · exact Candle.Before.irrefl e
  · exact (ordered.cons_before later).asymm

theorem before_all (ordered : Ordered (d :: rest)) (before : c.Before d) (member : e ∈ d :: rest) : c.Before e := by
  obtain rfl | later := mem_cons.mp member
  · exact before
  · exact before.trans (ordered.cons_before later)

theorem all_before (ordered : Ordered rows) {last : Candle} (isLast : rows.getLast? = some last)
    (before : last.Before e) (member : c ∈ rows) : c.Before e := by
  obtain ⟨pre, rfl⟩ := getLast?_eq_some_iff.mp isLast
  obtain inside | end_ := mem_append.mp member
  · exact ((pairwise_append.mp ordered.before).2.2 c inside last (.head _)).trans before
  · exact mem_singleton.mp end_ ▸ before

theorem lastIndex_found (ordered : Ordered (pre ++ c :: rest)) (time : c .time = .int t) :
    Track.lastIndex ((pre ++ c :: rest).map (· .time)) (.int t) = .ok pre.length := by
  induction rest using reverseRecOn with
  | nil =>
    rw [map_append, map_singleton, Track.lastIndex_concat, time, Value.holds_ints]
    simp [pure, Except.pure, bind, Except.bind]
  | append_singleton rest e ih =>
    have whole : pre ++ c :: (rest ++ [e]) = pre ++ c :: rest ++ [e] := by simp
    rw [whole] at ordered ⊢
    obtain ⟨s, u, own, other, less⟩ :=
      (pairwise_append.mp ordered.before).2.2 c (by simp) e (.head _)
    cases time.symm.trans own
    rw [map_append, map_singleton, Track.lastIndex_concat, other, Value.holds_ints,
      decide_eq_false (by omega), ok_bind, if_neg Bool.false_ne_true]
    exact ih (ordered.sublist (sublist_append_left ..))

theorem lastIndex_absent (ordered : Ordered rows) (absent : ∀ c ∈ rows, c .time ≠ .int t) :
    Track.lastIndex (rows.map (· .time)) (.int t) = .ok (-1) := by
  induction rows using reverseRecOn with
  | nil => rfl
  | append_singleton rows e ih =>
    obtain ⟨u, time⟩ := ordered.times e (by simp)
    have apart : u ≠ t := fun same => absent e (by simp) (same ▸ time)
    rw [map_append, map_singleton, Track.lastIndex_concat, time, Value.holds_ints,
      decide_eq_false apart, ok_bind, if_neg Bool.false_ne_true]
    exact ih (ordered.sublist (sublist_append_left ..)) fun c member => absent c (mem_append_left _ member)

end Ordered

namespace ArchiveM

/-- Where candles that begin with `d` are merged in: at the stored candle of its time, or at the beginning. -/
def MergesAt (rows : List Candle) (d : Candle) (k : Nat) : Prop :=
  (∃ c, rows[k]? = some c ∧ c .time = d .time) ∨ k = 0 ∧ ∀ c ∈ rows, c .time ≠ d .time

def overwritten (k : Nat) (rows new : List Candle) : List Candle :=
  rows.take k ++ new ++ rows.drop (k + new.length)

/-- What merging should give: candles in order, with those stored before the first new one and all new ones. -/
structure Merged (rows : List Candle) (d : Candle) (rest result : List Candle) : Prop where
  ordered : Ordered result
  older : ∀ c ∈ rows, c.Before d → c ∈ result
  present : ∀ c ∈ d :: rest, c ∈ result

theorem exists_mergesAt (rows : List Candle) (d : Candle) : ∃ k, MergesAt rows d k := by
  by_cases found : ∃ c ∈ rows, c .time = d .time
  · obtain ⟨c, member, same⟩ := found
    obtain ⟨k, place⟩ := getElem?_of_mem member
    exact ⟨k, .inl ⟨c, place, same⟩⟩
  · exact ⟨0, .inr ⟨rfl, fun c member same => found ⟨c, member, same⟩⟩⟩

variable {a : Archive} {res : Int} {batch : Fields} {k : Nat}

theorem outcome_candlesOrNew (stored : (a.find? (.int res)).getD {} = .table rows) :
    ∃ a', outcome (candlesOrNew (.int res)) a = (.ok (.table rows), a') ∧ a'.Has res rows ∧
      ∀ c, a'.put (.int res) c = a.put (.int res) c := by
  have key : (Value.int res).isKey := rfl
  cases found : a.find? (.int res) with
  | some c =>
    rw [found, Option.getD_some] at stored
    subst stored
    exact ⟨a, by simp [candlesOrNew, key, outcome_bind, found], found, fun _ => rfl⟩
  | none =>
    rw [found, Option.getD_none] at stored
    refine ⟨a.put (.int res) {}, ?_, ?_, fun c => Archive.put_put ..⟩
    · rw [← stored]
      simp only [candlesOrNew, key, Bool.not_true, Bool.false_eq_true, if_false]
      rw [get_bind, found]
      rfl
    · rw [Archive.Has, Archive.find?_put_self, stored]

theorem outcome_merge (stored : (a.find? (.int res)).getD {} = .table rows) (ordered : Ordered rows)
    (carries : Carries batch (d :: rest)) (time : d .time = .int t) (place : MergesAt rows d k) :
    outcome (update (.int res) batch) a = (.ok ⟨⟩, a.put (.int res) (.table (overwritten k rows (d :: rest)))) := by
  obtain ⟨a', known, found, same⟩ := outcome_candlesOrNew stored
  have read : batch.get "t" = .ok (.list ((d :: rest).map (· .time))) := carries .time
  have items : (Value.list ((d :: rest).map (· .time))).items = .ok ((d :: rest).map (· .time)) := rfl
  have head : Value.itemOf ((d :: rest).map (· .time)) 0 = .ok (.int t) := by
    rw [← time]
    exact Value.itemOf_of_getElem? (k := 0) rfl
  -- The place is at most the number of candles, so that nothing is skipped when the first one is written.
  obtain ⟨index, at_, start, low⟩ : ∃ index : Int, Track.lastIndex (rows.map (· .time)) (.int t) = .ok index ∧
      (if index < 0 then 0 else index) = k ∧ k ≤ rows.length := by
    obtain ⟨c, here, timeC⟩ | ⟨rfl, absent⟩ := place
    · obtain ⟨inside, rfl⟩ := List.getElem?_eq_some_iff.mp here
      have whole : rows.take k ++ rows[k] :: rows.drop (k + 1) = rows := by simp
      have length : (rows.take k).length = k := length_take_of_le (Nat.le_of_lt inside)
      have index := Ordered.lastIndex_found (whole.symm ▸ ordered) (timeC.trans time)
      rw [whole, length] at index
      exact ⟨k, index, by omega, Nat.le_of_lt inside⟩
    · exact ⟨-1, ordered.lastIndex_absent fun c member => time ▸ absent c member, rfl, Nat.zero_le _⟩
  have length : (rows.take k).length = k := length_take_of_le low
  have found' : a'.Has res (rows.take k ++ [] ++ rows.drop k) := by simpa using found
  have copied := outcome_copy (show Carries batch ([] ++ d :: rest) from carries) found'
  rw [length, same, append_nil, drop_drop] at copied
  unfold update
  rw [bind_ok known, read, outcome_ok_bind, items, outcome_ok_bind, head,
    outcome_ok_bind, Candles.time_table, at_, outcome_ok_bind, length_map,
    range_eq_range']
  rw [start]
  exact copied

theorem older_iff (ordered : Ordered rows) (increasing : Ordered (d :: rest)) (place : MergesAt rows d k)
    (notOlder : ∀ c, rows.head? = some c → ¬ d.Before c) :
    (∀ c ∈ rows, c.Before d → c ∈ overwritten k rows (d :: rest)) ↔
      rows = [] ∨ ∃ c, rows[k]? = some c ∧ c .time = d .time := by
  constructor
  · intro older
    obtain found | ⟨rfl, absent⟩ := place
    · exact .inr found
    · cases rows with
      | nil => exact .inl rfl
      | cons c rows =>
        -- The oldest candle is older than the new ones, and they are written over it.
        obtain ⟨s, timeC⟩ := ordered.times c (.head _)
        obtain ⟨t, timeD⟩ := increasing.times d (.head _)
        have notLater : ¬ t < s := fun less => notOlder c rfl ⟨t, s, timeD, timeC, less⟩
        have apart : s ≠ t := fun same => absent c mem_cons_self (by rw [timeC, timeD, same])
        have before : c.Before d := ⟨s, t, timeC, timeD, by omega⟩
        have stays := older c (.head _) before
        rw [overwritten, take_zero, nil_append, mem_append] at stays
        obtain mem | mem := stays
        · exact absurd before (increasing.not_before_first mem)
        · exact absurd (ordered.cons_before (mem_of_mem_drop mem)) (Candle.Before.irrefl c)
  · rintro (rfl | ⟨c', here, same⟩) c member before
    · cases member
    · obtain ⟨inside, rfl⟩ := List.getElem?_eq_some_iff.mp here
      rw [← take_append_drop k rows, mem_append] at member
      obtain early | late := member
      · exact mem_append_left _ (mem_append_left _ early)
      · rw [drop_eq_getElem_cons inside] at late
        have tail : Ordered (rows[k] :: rows.drop (k + 1)) := by
          rw [← drop_eq_getElem_cons inside]
          exact ordered.sublist (drop_sublist ..)
        exact absurd (before.congr_right same.symm) (tail.not_before_first late)

theorem ordered_overwritten_iff (ordered : Ordered rows) (increasing : Ordered (d :: rest))
    (found : rows = [] ∨ ∃ c, rows[k]? = some c ∧ c .time = d .time) {last : Candle}
    (isLast : (d :: rest).getLast? = some last) :
    Ordered (overwritten k rows (d :: rest)) ↔ ∀ x, rows[k + (d :: rest).length]? = some x → last.Before x := by
  constructor
  · intro whole x next
    have after : x ∈ rows.drop (k + (d :: rest).length) := mem_of_getElem? (i := 0) (by simpa using next)
    have mem : last ∈ rows.take k ++ d :: rest := mem_append_right _ (mem_of_getLast? isLast)
    exact (pairwise_append.mp whole.before).2.2 last mem x after
  · intro follows
    have front : ∀ c ∈ rows.take k, ∀ e ∈ d :: rest, c.Before e := by
      intro c early e member
      refine increasing.before_all ?_ member
      obtain rfl | ⟨c', here, same⟩ := found
      · rw [take_nil] at early
        cases early
      · obtain ⟨inside, rfl⟩ := List.getElem?_eq_some_iff.mp here
        have pairs := ordered.before
        rw [← take_append_drop k rows, pairwise_append] at pairs
        have here : rows[k] ∈ rows.drop k := by
          rw [drop_eq_getElem_cons inside]
          exact (.head _)
        exact (pairs.2.2 c early rows[k] here).congr_right same
    have back : ∀ e ∈ d :: rest, ∀ x ∈ rows.drop (k + (d :: rest).length), e.Before x := by
      intro e member x late
      obtain ⟨y, after, split⟩ := exists_cons_of_ne_nil (ne_nil_of_mem late)
      have next : rows[k + (d :: rest).length]? = some y := by
        have first := congrArg (·[0]?) split
        simpa using first
      have tail : Ordered (y :: after) := split ▸ ordered.sublist (drop_sublist ..)
      exact tail.before_all (increasing.all_before isLast (follows y next) member) (split ▸ late)
    have around : ∀ c ∈ rows.take k, ∀ x ∈ rows.drop (k + (d :: rest).length), c.Before x :=
      fun c early x late =>
        (front c early last (mem_of_getLast? isLast)).trans (back last (mem_of_getLast? isLast) x late)
    refine ⟨fun c member => ?_, pairwise_append.mpr
      ⟨pairwise_append.mpr ⟨?_, increasing.before, front⟩, ?_, ?_⟩⟩
    · obtain member | late := mem_append.mp member
      · obtain early | new := mem_append.mp member
        · exact ordered.times c (mem_of_mem_take early)
        · exact increasing.times c new
      · exact ordered.times c (mem_of_mem_drop late)
    · exact ordered.before.sublist (take_sublist ..)
    · exact ordered.before.sublist (drop_sublist ..)
    · intro c member x late
      obtain early | new := mem_append.mp member
      · exact around c early x late
      · exact back c new x late

theorem flatCandle_before {t u : Int} (below : t < u) {step : Int} (pos : 0 < step) (price : Int)
    {prices : List Int} (member : c ∈ flatCandles u step prices) : (flatCandle t price).Before c := by
  induction prices generalizing u with
  | nil => cases member
  | cons next prices ih =>
    obtain rfl | member := mem_cons.mp member
    · exact ⟨t, u, rfl, rfl, below⟩
    · exact ih (by omega) member

theorem flatCandles_ordered (t : Int) {step : Int} (pos : 0 < step) (prices : List Int) :
    Ordered (flatCandles t step prices) := by
  induction prices generalizing t with
  | nil => exact ⟨nofun, .nil⟩
  | cons price prices ih =>
    have first : ∀ c ∈ flatCandles (t + step) step prices, (flatCandle t price).Before c :=
      fun c member => flatCandle_before (by omega) pos price member
    exact ⟨forall_mem_cons.mpr ⟨⟨t, rfl⟩, (ih (t + step)).times⟩,
      pairwise_cons.mpr ⟨first, (ih (t + step)).before⟩⟩

/-- Merging candles into ordered ones of which the first is not younger never fails: they are written over the stored
    ones from their place on. The stored candles before them stay, and all are in order, exactly if there was none or
    one of the same first time, and the new candles end before the stored one that follows them. -/
theorem update_merged_iff {a : Archive} {res : Int} {batch : Fields} {rows rest : List Candle} {d last : Candle}
    (stored : (a.find? (.int res)).getD {} = .table rows) (ordered : Ordered rows)
    (carries : Carries batch (d :: rest)) (increasing : Ordered (d :: rest))
    (notOlder : ∀ c, rows.head? = some c → ¬ d.Before c) (isLast : (d :: rest).getLast? = some last) :
    ∃ k result, MergesAt rows d k ∧ result = overwritten k rows (d :: rest) ∧
      outcome (update (.int res) batch) a = (.ok ⟨⟩, a.put (.int res) (.table result)) ∧
      (∀ c ∈ d :: rest, c ∈ result) ∧
      (Merged rows d rest result ↔ (rows = [] ∨ ∃ c, rows[k]? = some c ∧ c .time = d .time) ∧
        ∀ x, rows[k + (d :: rest).length]? = some x → last.Before x) := by
  obtain ⟨k, place⟩ := exists_mergesAt rows d
  obtain ⟨t, time⟩ := increasing.times d List.mem_cons_self
  have present : ∀ c ∈ d :: rest, c ∈ overwritten k rows (d :: rest) :=
    fun c member => List.mem_append_left _ (List.mem_append_right _ member)
  refine ⟨k, _, place, rfl, outcome_merge stored ordered carries time place, present, fun merged => ?_, ?_⟩
  · have found := (older_iff ordered increasing place notOlder).mp merged.older
    exact ⟨found, (ordered_overwritten_iff ordered increasing found isLast).mp merged.ordered⟩
  · rintro ⟨found, follows⟩
    exact ⟨(ordered_overwritten_iff ordered increasing found isLast).mpr follows,
      (older_iff ordered increasing place notOlder).mpr found, present⟩

/-- Candles that begin with a stored one and go beyond the last. -/
theorem update_merged_iff_overlapping : ∃ result,
    outcome (update (.int 1) (Candles.table (flatCandles 120 60 [5, 6, 7])).toFields)
      [(.int 1, .table (flatCandles 60 60 [1, 2, 3]))] = (.ok ⟨⟩, [(.int 1, .table result)]) ∧
    Merged (flatCandles 60 60 [1, 2, 3]) (flatCandle 120 5) (flatCandles 180 60 [6, 7]) result := by
  have notOlder : ∀ c, (flatCandles 60 60 [1, 2, 3]).head? = some c → ¬ (flatCandle 120 5).Before c := by
    rintro _ ⟨⟩ ⟨_, _, ⟨⟩, ⟨⟩, less⟩
    exact absurd less (by decide)
  have stored : (Archive.find? [(.int 1, .table (flatCandles 60 60 [1, 2, 3]))] (.int 1)).getD {} =
      .table (flatCandles 60 60 [1, 2, 3]) := rfl
  have increasing : Ordered (flatCandle 120 5 :: flatCandles 180 60 [6, 7]) :=
    flatCandles_ordered 120 (show (0 : Int) < 60 by decide) [5, 6, 7]
  obtain ⟨k, result, place, _, merged, _, whole⟩ := update_merged_iff stored
    (flatCandles_ordered 60 (by decide) _) (toFields_carries _) increasing notOlder rfl
  refine ⟨result, merged, whole.mpr ?_⟩
  obtain ⟨c, found, same⟩ | ⟨_, absent⟩ := place
  · refine ⟨.inr ⟨c, found, same⟩, ?_⟩
    match k with
    | 0 => cases found; cases same
    | 1 => exact nofun
    | 2 => cases found; cases same
    | k + 3 => cases found
  · exact absurd rfl (absent (flatCandle 120 2) (by simp [flatCandles]))

/-- A candle that comes one step after the last stored one is written over the first, before an older one. -/
theorem update_continuing_loses :
    Ordered (flatCandles 60 60 [1, 2]) ∧ Ordered (flatCandles 180 60 [3]) ∧
    outcome (update (.int 1) (Candles.table (flatCandles 180 60 [3])).toFields)
        [(.int 1, .table (flatCandles 60 60 [1, 2]))] =
      (.ok ⟨⟩, [(.int 1, .table [flatCandle 180 3, flatCandle 120 2])]) ∧
    ¬ Merged (flatCandles 60 60 [1, 2]) (flatCandle 180 3) [] [flatCandle 180 3, flatCandle 120 2] := by
  refine ⟨flatCandles_ordered 60 (by decide) _, flatCandles_ordered 180 (by decide) _, rfl, fun merged => ?_⟩
  obtain ⟨_, _, ⟨⟩, ⟨⟩, less⟩ := (List.pairwise_cons.mp merged.ordered.before).1 _ List.mem_cons_self
  exact absurd less (by decide)

end ArchiveM

end PineEngine
