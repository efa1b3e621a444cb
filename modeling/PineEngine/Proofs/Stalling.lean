import PineEngine.Proofs.Sampling

/-! # Coarse candles that cannot be computed

Coarse candles are registered before they are computed. If there were none and the computation fails, an empty table
stays behind; the next computation takes it for known coarse candles, looks for the last of them and fails, whatever the
fine candles are by then (`attempts_stalled`). Where coarse candles were known before, a failure leaves all as it was.

`downsample_failed` says when a computation fails, and what it leaves. Where no coarse candles are known, it fails if no
candle starts a span, or if the last candle that does is the only one of them that opens at a price other than zero.
-/

namespace PineEngine

open Computation List

namespace ArchiveM

variable {source target span t : Int} {rows pre rest P J T : List Candle} {c d : Candle} {b : Bucket} {a : Archive}

/-- A bucket can take in candles: as many of the first ones as are wanted. -/
def Bucket.Absorbs (b : Bucket) (rows : List Candle) : Prop :=
  ∀ run, run <+: rows → ∃ b', run.foldlM Bucket.merge b = .ok b'

theorem Bucket.Absorbs.cons (absorbs : b.Absorbs (c :: rest)) : ∃ b', b.merge c = .ok b' ∧ b'.Absorbs rest := by
  obtain ⟨b', first⟩ := absorbs [c] ⟨rest, rfl⟩
  have merged : b.merge c = .ok b' := (bind_pure (b.merge c)).symm.trans first
  refine ⟨b', merged, fun run part => ?_⟩
  obtain ⟨b'', more⟩ := absorbs (c :: run) (cons_prefix_cons.mpr ⟨rfl, part⟩)
  rw [foldlM_cons, merged] at more
  exact ⟨b'', more⟩

theorem Bucket.Absorbs.part (absorbs : b.Absorbs rows) (part : pre <+: rows) : b.Absorbs pre :=
  fun run first => absorbs run (first.trans part)

theorem Mergeable.absorbs (mergeable : Mergeable (c :: rest)) : (Bucket.ofCandle c).Absorbs rest :=
  fun run part => mergeable c run (cons_prefix_cons.mpr ⟨rfl, part⟩).isInfix

/-- Fine candles with whole numbers as times that can be put together. -/
structure Usable (rows : List Candle) : Prop where
  times : ∀ c ∈ rows, ∃ t : Int, c .time = .int t
  mergeable : Mergeable rows
  lead : Bucket.Absorbs {} rows

/-- Whether the buckets that are met open at a price that counts: the open one, and those that candles start. -/
def openings (span : Int) (b : Bucket) (rest : List Candle) : List Bool :=
  b.opening.isTrue :: (rest.filter (Candle.starts span)).map fun c => (c .open).isTrue

theorem outcome_fillBuckets (apart : source ≠ target) (nonzero : span ≠ 0)
    (times : ∀ c ∈ rest, ∃ t : Int, c .time = .int t) (mergeable : Mergeable rest)
    (absorbs : b.Absorbs (rest.takeWhile fun c => !c.starts span))
    (stored : a.Has source (pre ++ rest))
    (found : a.Has target (P ++ J)) :
    ∃ b' W,
      outcome (fillBuckets (.int source) (.int target) (.int span) (range' pre.length rest.length) P.length b) a =
        (.ok ((P ++ W).length, b'), a.put (.int target) (.table (P ++ W ++ J.drop W.length))) ∧
      W.length = (openings span b rest).dropLast.count true ∧
      (openings span b rest).getLast? = some b'.opening.isTrue ∧ ∀ w ∈ W, ∃ t : Int, w .time = .int t := by
  induction rest generalizing pre P J b a with
  | nil =>
    refine ⟨b, [], ?_, rfl, rfl, nofun⟩
    rw [append_nil, length_nil, drop_zero, Archive.put_self found]
    rfl
  | cons c rest ih =>
    obtain ⟨⟨t, time⟩, times⟩ := forall_mem_cons.mp times
    have stored' : a.Has source (pre ++ [c] ++ rest) := by simpa using stored
    have mergeable' : Mergeable rest := mergeable.part ⟨[c], [], by simp⟩
    have absorbs' : (Bucket.ofCandle c).Absorbs (rest.takeWhile fun c => !c.starts span) :=
      mergeable.absorbs.part ( takeWhile_prefix _)
    rw [range'_cons, outcome_fillBuckets_cons apart nonzero stored found time]
    split
    next starts =>
      have listed : openings span b (c :: rest) = b.opening.isTrue :: openings span (.ofCandle c) rest := by
        simp only [openings, filter_cons, starts, if_true, map_cons]
        rfl
      have inner : openings span (.ofCandle c) rest ≠ [] := cons_ne_nil _ _
      rw [listed, dropLast_cons_of_ne_nil inner, getLast?_cons_of_ne_nil inner]
      split
      next opened =>
        -- The open bucket is written, and stands before those that follow.
        obtain ⟨b', W, filled, count, last, times⟩ := ih (P := P ++ [b.candle (.int (t - span))]) (J := J.drop 1)
          (a := a.put (.int target) (.table (P ++ b.candle (.int (t - span)) :: J.drop 1))) times mergeable'
          absorbs' ((Archive.find?_put_ne a apart _).trans stored')
          (by rw [← append_cons]; exact Archive.find?_put_self ..)
        have place : ((P ++ [b.candle (.int (t - span))]).length : Int) = P.length + 1 := by simp
        refine ⟨b', b.candle (.int (t - span)) :: W, ?_, ?_, last, forall_mem_cons.mpr ⟨⟨_, rfl⟩, times⟩⟩
        · rw [place, Archive.put_put] at filled
          simpa using filled
        · rw [opened, length_cons, count_cons_self, count]
      next closed =>
        obtain ⟨b', W, filled, count, last, times⟩ := ih times mergeable' absorbs' stored' found
        have closed : b.opening.isTrue = false := Bool.eq_false_iff.mpr closed
        refine ⟨b', W, filled, ?_, last, times⟩
        rw [closed, count_cons_of_ne Bool.false_ne_true, count]
    next inside =>
      rw [takeWhile_cons_of_pos (by simpa using inside)] at absorbs
      obtain ⟨b₁, merged, absorbs⟩ := absorbs.cons
      have listed : openings span b (c :: rest) = openings span b₁ rest := by
        simp only [openings, filter_cons, inside, Bucket.merge_opening merged]
        rfl
      rw [merged, outcome_ok_bind, listed]
      exact ih times mergeable' absorbs stored' found

theorem exists_itemOf {items : List Value} {i : Int} (nonempty : 0 < items.length) (low : -1 ≤ i)
    (high : i < items.length) : ∃ v ∈ items, Value.itemOf items i = .ok v := by
  obtain ⟨k, place, inside⟩ : ∃ k, Column.position? items.length i = some k ∧ k < items.length := by
    unfold Column.position?
    by_cases front : 0 ≤ i
    · exact ⟨i.toNat, by rw [if_pos front, if_pos high], by omega⟩
    · exact ⟨(i + items.length).toNat, by rw [if_neg front, if_pos (by omega)], by omega⟩
  refine ⟨items[k], getElem_mem inside, ?_⟩
  rw [Value.itemOf, place]
  dsimp only
  rw [getElem?_eq_getElem inside]

theorem closeBucket_succeeds (found : a.Has target (P ++ J)) (nonempty : P ++ J ≠ [])
    (times : ∀ c ∈ P ++ J, ∃ t : Int, c .time = .int t) :
    ∃ a', outcome (closeBucket (.int target) (.int span) P.length b) a = (.ok ⟨⟩, a') := by
  unfold closeBucket
  split
  · have length : 0 < (P ++ J).length := length_pos_iff.mpr nonempty
    have count : (Candles.table (P ++ J)).time.length = P.length + J.length := by simp [Candles.time_table]
    obtain ⟨v, member, item⟩ := exists_itemOf (i := (P.length : Int) - 1)
      (show 0 < (Candles.table (P ++ J)).time.length by rw [count, ← length_append]; exact length) (by omega)
      (by rw [count]; omega)
    obtain ⟨c, mem, rfl⟩ := mem_map.mp member
    obtain ⟨t, time⟩ := times c mem
    have label : Value.arith .add (.int t) (.int span) = .ok (.int (t + span)) := rfl
    rw [bind_ok (outcome_candles found), item, outcome_ok_bind, time, label,
      outcome_ok_bind]
    exact ⟨_, outcome_writeBucket found ..⟩
  · exact ⟨a, rfl⟩

theorem closeBucket_fails (found : a.Has target []) (opened : b.opening.isTrue) :
    outcome (closeBucket (.int target) (.int span) 0 b) a = (.error .index, a) := by
  unfold closeBucket
  rw [if_pos opened, bind_ok (outcome_candles found)]
  rfl

section

variable (apart : source ≠ target) (nonzero : span ≠ 0) (usable : Usable (pre ++ rest))
  (leads : pre = [] ∨ rest.head?.any (Candle.starts span)) (stored : a.Has source (pre ++ rest))

include apart nonzero usable leads stored

/-- The fine candles from the place `pre.length` on, where a span starts unless it is the first place. -/
theorem outcome_sampleFrom (found : a.Has target (P ++ J)) :
    ∃ b W, outcome (sampleFrom (.int source) (.int target) (.int span) (pre ++ rest).length pre.length P.length) a =
        outcome (closeBucket (.int target) (.int span) (P ++ W).length b)
          (a.put (.int target) (.table (P ++ W ++ J.drop W.length))) ∧
      W.length = (openings span {} rest).dropLast.count true ∧
      (openings span {} rest).getLast? = some b.opening.isTrue ∧ ∀ w ∈ W, ∃ t : Int, w .time = .int t := by
  have places : (range (pre ++ rest).length).drop pre.length = range' pre.length rest.length := by
    simp [range_eq_range']
  have absorbs : Bucket.Absorbs {} (rest.takeWhile fun c => !c.starts span) := by
    obtain rfl | first := leads
    · exact usable.lead.part ( takeWhile_prefix _)
    · obtain ⟨c, head, starts⟩ := (Option.any_eq_true _ _).mp first
      obtain ⟨rest, rfl⟩ := head?_eq_some_iff.mp head
      rw [takeWhile_cons_of_neg (by simpa using starts)]
      intro run part
      cases prefix_nil.mp part
      exact ⟨_, rfl⟩
  obtain ⟨b, W, filled, rest⟩ := outcome_fillBuckets apart nonzero
    (fun c member => usable.times c (mem_append_right pre member)) (usable.mergeable.part ⟨pre, [], by simp⟩)
    absorbs stored found
  exact ⟨b, W, by rw [sampleFrom, places, bind_ok filled], rest⟩

theorem sampleFrom_succeeds (found : a.Has target (P ++ [c])) (known : ∀ d ∈ P ++ [c], ∃ t : Int, d .time = .int t) :
    ∃ a', outcome (sampleFrom (.int source) (.int target) (.int span) (pre ++ rest).length pre.length P.length) a =
      (.ok ⟨⟩, a') := by
  obtain ⟨b, W, filled, _, _, times⟩ := outcome_sampleFrom apart nonzero usable leads stored found
  rw [filled]
  refine closeBucket_succeeds (Archive.find?_put_self ..) ?_ fun d member => ?_
  · cases W <;> simp
  · obtain front | back := mem_append.mp member
    · obtain old | new := mem_append.mp front
      · exact known d (mem_append_left _ old)
      · exact times d new
    · exact known d (mem_append_right P (mem_of_mem_drop back))

end

theorem sampleFrom_zero (stored : a.Has source rows)
    (times : ∀ c ∈ rows, ∃ t : Int, c .time = .int t) {i : Nat} (inside : i < rows.length) (ti : Int) :
    outcome (sampleFrom (.int source) (.int target) (.int 0) rows.length i ti) a = (.error .zeroDivision, a) := by
  have places : (range rows.length).drop i = i :: (range rows.length).drop (i + 1) := by
    rw [drop_eq_getElem_cons (by simpa using inside), getElem_range]
  obtain ⟨t, time⟩ := times rows[i] (getElem_mem inside)
  have item : Value.itemOf (Candles.table rows).time i = .ok (.int t) := by
    rw [← time]
    exact Value.itemOf_of_getElem? (by simp [Candles.time_table, inside])
  rw [sampleFrom, places, fillBuckets, bind_assoc, bind_ok (outcome_candles stored), bind_assoc, item,
    outcome_ok_bind, bind_assoc]
  rfl

theorem firstStart_none (nonzero : span ≠ 0) (times : ∀ c ∈ rows, ∃ t : Int, c .time = .int t)
    (none : ∀ c ∈ rows, ¬ c.starts span) : firstStart (.table rows) (.int span) = .error .unset := by
  have go (i : Nat) : firstStart.go (.int span) (rows.map (· .time)) i = .error .unset := by
    induction rows generalizing i with
    | nil => rfl
    | cons d rows ih =>
      obtain ⟨⟨t, time⟩, times⟩ := forall_mem_cons.mp times
      obtain ⟨inside, none⟩ := forall_mem_cons.mp none
      rw [map_cons, firstStart.go, time, starts_time nonzero time, Bool.eq_false_iff.mpr inside]
      exact ih times none (i + 1)
  exact go 0

theorem firstStart_zero (time : c .time = .int t) :
    firstStart (.table (c :: rest)) (.int 0) = .error .zeroDivision := by
  rw [firstStart, Candles.time_table, map_cons, firstStart.go, time]
  rfl

theorem startBefore_le {u : Value} {m i : Nat} (found : startBefore (.table rows) (.int span) u m = .ok i) : i ≤ m := by
  induction m with
  | zero =>
    cases found
    exact Nat.le_refl 0
  | succ m ih =>
    obtain ⟨t, _, below, _, found⟩ := bind₂_eq_ok found
    have decided : ∃ found : Bool, (if found then pure (m + 1) else startBefore (.table rows) (.int span) u m) =
        .ok i := by
      split at found
      · exact (bind_eq_ok found).imp fun _ => And.right
      · exact ⟨false, found⟩
    obtain ⟨_ | _, found⟩ := decided
    · exact Nat.le_succ_of_le (ih found)
    · cases found
      exact Nat.le_refl _

theorem startBefore_succeeds (nonzero : span ≠ 0) (times : ∀ c ∈ rows, ∃ t : Int, c .time = .int t) (u : Int) {m : Nat}
    (inside : m < rows.length) : ∃ i, startBefore (.table rows) (.int span) (.int u) m = .ok i ∧
      (i = 0 ∨ rows[i]?.any (Candle.starts span)) := by
  induction m with
  | zero => exact ⟨0, rfl, .inl rfl⟩
  | succ m ih =>
    obtain ⟨t, time⟩ := times rows[m + 1] (getElem_mem inside)
    have item : Value.itemOf (Candles.table rows).time ((m : Int) + 1) = .ok (.int t) := by
      rw [← time, ← Int.natCast_succ]
      exact Value.itemOf_of_getElem? (by simp [Candles.time_table, inside])
    rw [startBefore, item, ok_bind, Value.holds_ints, ok_bind, starts_time nonzero time]
    dsimp only
    by_cases here : t ≤ u ∧ rows[m + 1].starts span
    · rw [decide_eq_true here.1, if_pos rfl, ok_bind, if_pos here.2]
      exact ⟨m + 1, rfl, .inr (by rw [getElem?_eq_getElem inside]; exact here.2)⟩
    · obtain ⟨i, before, leads⟩ := ih (by omega)
      refine ⟨i, ?_, leads⟩
      split
      next early =>
        rw [ok_bind, if_neg fun starts => here ⟨of_decide_eq_true early, starts⟩]
        exact before
      next => exact before

theorem outcome_downsample_empty (stored : a.Has source rows)
    (found : a.Has target []) :
    outcome (downsample (.int source) (.int target)) a = (.error .index, a) := by
  have span : Value.arith .mul (.int target) (.int 60) = .ok (.int (target * 60)) := rfl
  unfold downsample
  rw [bind_ok (outcome_candles stored)]
  simp only [Value.isKey, Bool.not_true, Bool.false_eq_true, if_false]
  rw [get_bind, span, outcome_ok_bind, found]
  rfl

/-- The coarse candles cannot be computed. Where none are known, a first one can be written only once a further span
    starts. -/
def Blocked (span : Int) (rows : List Candle) : Option (List Candle) → Prop
  | none => span = 0 ∨
      (∀ c ∈ (rows.filter (Candle.starts span)).dropLast, ¬ (c .open).isTrue) ∧
      ∀ c ∈ (rows.filter (Candle.starts span)).getLast?, (c .open).isTrue
  | some known => known = [] ∨ span = 0 ∨
      (∀ c ∈ known.getLast?, c .time = .int 0) ∧ ∀ c ∈ rows, ¬ c.starts span

theorem blocked_none_iff (nonzero : span ≠ 0) (starts : ∃ c ∈ rows, c.starts span) :
    Blocked span rows none ↔
      (openings span {} rows).dropLast.count true = 0 ∧ (openings span {} rows).getLast? = some true := by
  obtain ⟨c, member, first⟩ := starts
  have nonempty : rows.filter (Candle.starts span) ≠ [] :=
    ne_nil_of_mem (mem_filter.mpr ⟨member, first⟩)
  rw [Blocked, openings, dropLast_cons_of_ne_nil (by simpa using nonempty),
    getLast?_cons_of_ne_nil (by simpa using nonempty), ← map_dropLast, getLast?_map]
  obtain ⟨d, last⟩ := Option.ne_none_iff_exists'.mp (mt getLast?_eq_none_iff.mp nonempty)
  have shut : ({} : Bucket).opening.isTrue = false := rfl
  simp [nonzero, last, shut, count_eq_zero, -map_dropLast]

/-- What computing the coarse candles gives, call after call, as the fine candles are replaced; a call that fails is
    followed by the next one all the same. -/
def attempts (source target : Int) : List (List Candle) → Archive → List (Except Fault PUnit)
  | [], _ => []
  | rows :: updates, a =>
    let (result, a') := outcome (refresh source target rows) a
    result :: attempts source target updates a'

theorem attempts_stalled (apart : source ≠ target) (empty : a.Has target [])
    (updates : List (List Candle)) : ∀ result ∈ attempts source target updates a, result = .error .index := by
  induction updates generalizing a with
  | nil => nofun
  | cons rows updates ih =>
    have still : (a.put (.int source) (.table rows)).Has target [] :=
      (Archive.find?_put_ne a apart.symm _).trans empty
    have failed : outcome (refresh source target rows) a = (.error .index, a.put (.int source) (.table rows)) :=
      (bind_ok (outcome_modify ..)).trans (outcome_downsample_empty (Archive.find?_put_self ..) still)
    rw [attempts, failed]
    exact forall_mem_cons.mpr ⟨rfl, ih still⟩

theorem downsample_fresh_cases (apart : source ≠ target) (nonempty : rows ≠ []) (usable : Usable rows)
    (stored : a.Has source rows) (fresh : a.find? (.int target) = none) :
    (Blocked (target * 60) rows none ∧
      ∃ e, outcome (downsample (.int source) (.int target)) a = (.error e, a.put (.int target) {})) ∨
    (¬ Blocked (target * 60) rows none ∧
      ∃ a', outcome (downsample (.int source) (.int target)) a = (.ok ⟨⟩, a')) := by
  have stored' : (a.put (.int target) {}).Has source rows :=
    (Archive.find?_put_ne a apart _).trans stored
  have found : (a.put (.int target) {}).Has target ([] ++ []) := Archive.find?_put_self ..
  rw [outcome_downsample_none stored fresh]
  by_cases zero : target * 60 = 0
  · obtain ⟨c, rest, rfl⟩ := exists_cons_of_ne_nil nonempty
    obtain ⟨t, time⟩ := usable.times c (.head _)
    rw [zero, firstStart_zero time]
    exact .inl ⟨.inl rfl, .zeroDivision, rfl⟩
  · by_cases starts : ∃ c ∈ rows, c.starts (target * 60)
    · obtain ⟨pre, c, rest, rfl, first, before⟩ := exists_first_start starts
      have begun : firstStart (.table (pre ++ c :: rest)) (.int (target * 60)) = .ok pre.length :=
        firstStart_table zero usable.times before first
      obtain ⟨b, W, filled, count, last, times⟩ := outcome_sampleFrom apart zero usable
        (.inr (by rwa [head?_cons, Option.any_some])) stored' found
      have skipped : openings (target * 60) {} (pre ++ c :: rest) = openings (target * 60) {} (c :: rest) := by
        rw [openings, filter_append, filter_eq_nil_iff.mpr before, nil_append, openings]
      rw [begun, outcome_ok_bind, blocked_none_iff zero starts, skipped, ← count, last]
      rw [show (0 : Int) = ([] : List Candle).length from rfl, filled]
      by_cases written : W = []
      · subst written
        by_cases opened : b.opening.isTrue
        · refine .inl ⟨⟨rfl, congrArg some opened⟩, .index, ?_⟩
          rw [Archive.put_put]
          exact closeBucket_fails (Archive.find?_put_self ..) opened
        · rw [closeBucket, if_neg opened]
          exact .inr ⟨fun blocked => opened (Option.some.inj blocked.2), _, rfl⟩
      · refine .inr ⟨fun blocked => written (length_eq_zero_iff.mp blocked.1), ?_⟩
        exact closeBucket_succeeds (J := []) (by simp [Archive.Has, Archive.find?_put_self]) (by simpa) (by simpa)
    · have none : ∀ c ∈ rows, ¬ c.starts (target * 60) := by simpa using starts
      have unstarted : rows.filter (Candle.starts (target * 60)) = [] := filter_eq_nil_iff.mpr none
      rw [firstStart_none zero usable.times none]
      refine .inl ⟨.inr ?_, .unset, rfl⟩
      simp [unstarted]

theorem downsample_known_cases {known : List Candle} (apart : source ≠ target) (nonempty : rows ≠ [])
    (usable : Usable rows) (times : ∀ c ∈ known, ∃ t : Int, c .time = .int t)
    (stored : a.Has source rows) (found : a.Has target known) :
    (Blocked (target * 60) rows (some known) ∧
      ∃ e, outcome (downsample (.int source) (.int target)) a = (.error e, a)) ∨
    (¬ Blocked (target * 60) rows (some known) ∧
      ∃ a', outcome (downsample (.int source) (.int target)) a = (.ok ⟨⟩, a')) := by
  obtain rfl | ⟨Q, c, rfl⟩ := eq_nil_or_concat known
  · exact .inl ⟨.inl rfl, .index, outcome_downsample_empty stored found⟩
  rw [concat_eq_append] at times found ⊢
  obtain ⟨t, time⟩ := times c (by simp)
  have length : rows.length - 1 < rows.length := Nat.sub_one_lt (mt length_eq_zero_iff.mp nonempty)
  have some : Q ++ [c] ≠ [] := by simp
  rw [outcome_downsample_some nonempty stored found time]
  by_cases zero : target * 60 = 0
  · refine .inl ⟨.inr (.inl zero), ?_⟩
    rw [zero]
    split
    · obtain ⟨d, rest, rfl⟩ := exists_cons_of_ne_nil nonempty
      obtain ⟨u, early⟩ := usable.times d (.head _)
      rw [firstStart_zero early]
      exact ⟨.zeroDivision, rfl⟩
    · cases looked : startBefore (.table rows) (.int 0) (.int t) (rows.length - 1) with
      | error e => exact ⟨e, rfl⟩
      | ok i =>
        exact ⟨.zeroDivision, sampleFrom_zero stored usable.times
          (Nat.lt_of_le_of_lt (startBefore_le looked) length) Q.length⟩
  · have goes (i : Nat) (inside : i ≤ rows.length) (leads : i = 0 ∨ rows[i]?.any (Candle.starts (target * 60))) :
        ∃ a', outcome (sampleFrom (.int source) (.int target) (.int (target * 60)) rows.length i Q.length) a =
          (.ok ⟨⟩, a') := by
      obtain ⟨pre, rest, rfl, rfl⟩ : ∃ pre rest, rows = pre ++ rest ∧ i = pre.length :=
        ⟨rows.take i, rows.drop i, (take_append_drop i rows).symm, by simpa using inside⟩
      refine sampleFrom_succeeds apart zero usable (leads.imp length_eq_zero_iff.mp fun starts => ?_) stored found
        times
      rwa [getElem?_append_right (Nat.le_refl _), Nat.sub_self, ← head?_eq_getElem?] at starts
    by_cases early : t = 0
    · rw [if_pos early]
      by_cases starts : ∃ c ∈ rows, c.starts (target * 60)
      · obtain ⟨pre, d, rest, rfl, first, before⟩ := exists_first_start starts
        rw [firstStart_table zero usable.times before first, outcome_ok_bind]
        refine .inr ⟨?_, goes pre.length (by simp) (.inr (by simpa using first))⟩
        rintro (empty | still | ⟨_, none⟩)
        exacts [some empty, zero still, none d (by simp) first]
      · have none : ∀ c ∈ rows, ¬ c.starts (target * 60) := by simpa using starts
        rw [firstStart_none zero usable.times none]
        refine .inl ⟨.inr (.inr ⟨?_, none⟩), .unset, rfl⟩
        simpa [early] using time
    · obtain ⟨i, looked, leads⟩ := startBefore_succeeds zero usable.times t length
      rw [if_neg early, looked, outcome_ok_bind]
      refine .inr ⟨?_, goes i (by have := startBefore_le looked; omega) leads⟩
      rintro (empty | still | ⟨last, _⟩)
      · exact some empty
      · exact zero still
      · have zeroth : c .time = .int 0 := last c (by simp)
        cases time.symm.trans zeroth
        exact early rfl

/-- Computing coarse candles fails exactly where it is blocked. If some were known before, a failure leaves all as it
    was. If there were none, it leaves an empty table, and every later call fails, whatever the fine candles are. -/
theorem downsample_failed {source target : Int} (apart : source ≠ target) {rows : List Candle} (nonempty : rows ≠ [])
    (usable : Usable rows) {known : Option (List Candle)}
    (times : ∀ T ∈ known, ∀ c ∈ T, ∃ t : Int, c .time = .int t) {a : Archive}
    (stored : a.find? (.int source) = some (.table rows)) (found : a.find? (.int target) = known.map .table) :
    ((∃ e a', outcome (downsample (.int source) (.int target)) a = (.error e, a')) ↔
        Blocked (target * 60) rows known) ∧
      ∀ e a', outcome (downsample (.int source) (.int target)) a = (.error e, a') →
        (known.isSome → a' = a) ∧
        (known = none → a' = a.put (.int target) {} ∧ a' ≠ a ∧
          ∀ updates, ∀ result ∈ attempts source target updates a', result = .error .index) := by
  cases known with
  | none =>
    obtain ⟨blocked, e, failed⟩ | ⟨free, a', computed⟩ := downsample_fresh_cases apart nonempty usable stored found
    · rw [failed]
      refine ⟨⟨fun _ => blocked, fun _ => ⟨e, _, rfl⟩⟩, ?_⟩
      rintro _ _ ⟨⟩
      have empty : (a.put (.int target) {}).Has target [] := Archive.find?_put_self ..
      refine ⟨nofun, fun _ => ⟨rfl, fun same => ?_, attempts_stalled apart empty⟩⟩
      rw [Archive.Has, same, found] at empty
      cases empty
    · rw [computed]
      exact ⟨⟨nofun, fun blocked => absurd blocked free⟩, nofun⟩
  | some known =>
    obtain ⟨blocked, e, failed⟩ | ⟨free, a', computed⟩ :=
      downsample_known_cases apart nonempty usable (times known rfl) stored found
    · rw [failed]
      refine ⟨⟨fun _ => blocked, fun _ => ⟨e, _, rfl⟩⟩, ?_⟩
      rintro _ _ ⟨⟩
      exact ⟨fun _ => rfl, nofun⟩
    · rw [computed]
      exact ⟨⟨nofun, fun blocked => absurd blocked free⟩, nofun⟩

theorem flatCandles_usable (t step : Int) (prices : List Int) : Usable (flatCandles t step prices) := by
  have closed : ∀ v w : Value, (∃ n, v = .int n) → (∃ n, w = .int n) →
      ∃ u, Value.arith .add v w = .ok u ∧ ∃ n, u = .int n := by
    rintro _ _ ⟨m, rfl⟩ ⟨n, rfl⟩
    exact ⟨.int (m + n), rfl, m + n, rfl⟩
  have numbers : ∀ c ∈ flatCandles t step prices,
      (c .high).isNumber ∧ (c .low).isNumber ∧ ∃ n, c .volume = .int n := by
    intro c member
    obtain ⟨t, price, _, rfl⟩ := mem_flatCandles member
    exact ⟨rfl, rfl, 1, rfl⟩
  exact ⟨(flatCandles_contiguous t step prices).times, mergeable_of_numbers closed numbers,
    fun run part => exists_merged closed (fun c member => numbers c (part.subset member)) ⟨rfl, rfl, 0, rfl⟩⟩

/-- One candle of a minute that starts no five minutes: nothing can be computed, and nothing ever will be. -/
theorem downsample_failed_minute :
    ∃ e a', outcome (downsample (.int 1) (.int 5)) [(.int 1, .table (flatCandles 60 60 [1]))] = (.error e, a') ∧
      a' ≠ [(.int 1, .table (flatCandles 60 60 [1]))] ∧
      ∀ result ∈ attempts 1 5 [flatCandles 60 60 [1, 2], flatCandles 300 60 [1, 2, 3, 4, 5, 6]] a',
        result = .error .index := by
  have stored : Archive.find? [(.int 1, .table (flatCandles 60 60 [1]))] (.int 1) =
    some (.table (flatCandles 60 60 [1])) := rfl
  have fresh : Archive.find? [(.int 1, .table (flatCandles 60 60 [1]))] (.int 5) =
    (none : Option (List Candle)).map .table := rfl
  obtain ⟨fails, leaves⟩ := downsample_failed (by decide) (by decide) (flatCandles_usable 60 60 [1]) (by nofun)
    stored fresh
  have blocked : Blocked (5 * 60) (flatCandles 60 60 [1]) none := .inr ⟨nofun, nofun⟩
  obtain ⟨e, a', failed⟩ := fails.mpr blocked
  obtain ⟨_, changed, stalled⟩ := (leaves e a' failed).2 rfl
  exact ⟨e, a', failed, changed, stalled _⟩

/-- Six minutes that start two spans are enough where nothing was computed before, and fail after the one minute. -/
theorem failed_sample_stalls :
    (outcome (refresh 1 5 (flatCandles 300 60 [1, 2, 3, 4, 5, 6])) []).1 = .ok ⟨⟩ ∧
      attempts 1 5 [flatCandles 60 60 [1], flatCandles 300 60 [1, 2, 3, 4, 5, 6]] [] =
        [.error .unset, .error .index] :=
  ⟨rfl, rfl⟩

end ArchiveM

end PineEngine
