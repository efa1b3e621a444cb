import PineEngine.Proofs.Tracks

/-! # Coarse candles

A coarse candle puts together the fine candles from one that starts a span of time up to the next that does
(`coarsen`). Computing the coarse candles goes on from the last one that is known: the fine candles before it are not
read again, and it is written anew. So as long as fine candles change only from the start of the last coarse candle
on, it does not matter whether the coarse ones are kept up with every change or computed once, in the end
(`downsample_refreshed`).
-/

namespace PineEngine

open Computation List Candles Value

def Candle.starts (span : Int) (c : Candle) : Bool :=
  match c .time with
  | .int t => t % span == 0
  | _ => false

namespace ArchiveM

variable {rows pre rest : List Candle} {c : Candle} {span t : Int} {b : Bucket} {p : Value → Prop} {prices : List Int}
  {time : Value}

namespace Bucket

def ofCandle (c : Candle) : Bucket :=
  ⟨c .open, c .close, c .high, c .low, c .volume⟩

def merge (b : Bucket) (c : Candle) : Except Fault Bucket := do
  let high := if ← holds .gt (c .high) b.high then c .high else b.high
  let low := if ← holds .lt (c .low) b.low then c .low else b.low
  let volume ← arith .add b.volume (c .volume)
  pure ⟨b.opening, c .close, high, low, volume⟩

def candle (b : Bucket) (time : Value) : Candle
  | .time => time
  | .open => b.opening
  | .high => b.high
  | .low => b.low
  | .close => b.closing
  | .volume => b.volume

theorem itemOf_column (c : Candle) (f : CandleField) :
    itemOf ((pre ++ c :: rest).map (· f)) pre.length = .ok (c f) :=
  itemOf_of_getElem? (by simp)

theorem start_table (c : Candle) : start (.table (pre ++ c :: rest)) pre.length = .ok (ofCandle c) := by
  simp only [start, table, ofColumns, itemOf_column]
  rfl

theorem add_table (b : Bucket) (c : Candle) : b.add (.table (pre ++ c :: rest)) pre.length = b.merge c := by
  simp only [add, table, ofColumns, itemOf_column]
  rfl

theorem merge_opening {b' : Bucket} (merged : b.merge c = .ok b') : b'.opening = b.opening := by
  obtain ⟨high, _, low, _, merged⟩ := bind₂_eq_ok merged
  obtain ⟨volume, _, merged⟩ := bind_eq_ok merged
  cases merged
  rfl

end Bucket

/-- The coarse candles out of an open bucket with its time and the fine candles that follow. -/
def coarsen (span : Int) (time : Value) (b : Bucket) : List Candle → Except Fault (List Candle)
  | [] => .ok [b.candle time]
  | c :: rest =>
    if c.starts span then do pure (b.candle time :: (← coarsen span (c .time) (.ofCandle c) rest))
    else do coarsen span time (← b.merge c) rest

/-- The coarse candles out of fine ones; those before the first start of a span are left out. -/
def coarse (span : Int) : List Candle → Except Fault (List Candle)
  | [] => .ok []
  | c :: rest => if c.starts span then coarsen span (c .time) (.ofCandle c) rest else coarse span rest

/-- Every run of consecutive candles can be put into one bucket. -/
def Mergeable (rows : List Candle) : Prop :=
  ∀ c run, c :: run <:+: rows → ∃ b, run.foldlM Bucket.merge (.ofCandle c) = .ok b

theorem holds_numbers (op : CompareOp) {v w : Value} (left : v.isNumber) (right : w.isNumber) :
    ∃ r, holds op v w = .ok r := by
  have single : compare op v w = (compareSingles op v w).map .bool := by
    cases v <;> cases w <;> first | rfl | simp [isNumber] at left right
  have ordered : ∃ r, compareSingles op v w = .ok r := by
    unfold compareSingles
    split
    · exact ⟨_, rfl⟩
    · rw [left, right]
      split
      · split <;> exact ⟨_, rfl⟩
      · contradiction
  obtain ⟨r, decided⟩ := ordered
  rw [holds, single, decided]
  exact ⟨_, rfl⟩

section Numbers

variable (closed : ∀ v w, p v → p w → ∃ u, arith .add v w = .ok u ∧ p u)
  (numbers : ∀ c ∈ rows, (c .high).isNumber ∧ (c .low).isNumber ∧ p (c .volume))

include closed numbers

theorem exists_merged (own : b.high.isNumber ∧ b.low.isNumber ∧ p b.volume) :
    ∃ b', rows.foldlM Bucket.merge b = .ok b' := by
  induction rows generalizing b with
  | nil => exact ⟨b, rfl⟩
  | cons c run ih =>
    obtain ⟨high, low, added⟩ := own
    obtain ⟨⟨high', low', added'⟩, numbers⟩ := forall_mem_cons.mp numbers
    obtain ⟨above, decidedHigh⟩ := holds_numbers .gt high' high
    obtain ⟨below, decidedLow⟩ := holds_numbers .lt low' low
    obtain ⟨total, sum, added⟩ := closed _ _ added added'
    have merged : b.merge c = .ok ⟨b.opening, c .close, if above then c .high else b.high,
        if below then c .low else b.low, total⟩ := by
      rw [Bucket.merge, decidedHigh, ok_bind, decidedLow, ok_bind, sum]
      rfl
    rw [foldlM_cons, merged]
    exact ih numbers ⟨by cases above <;> assumption, by cases below <;> assumption, added⟩

theorem mergeable_of_numbers : Mergeable rows := by
  intro c run inside
  have members := fun d member => numbers d (inside.subset member)
  exact exists_merged closed (fun d member => members d (.tail _ member)) (members c (.head _))

end Numbers

theorem exists_coarsen (mergeable : Mergeable rows) {run : List Candle} (time : Value)
    (merged : run.foldlM Bucket.merge (.ofCandle c) = .ok b) (inside : c :: run ++ rest <:+: rows) :
    ∃ T, coarsen span time b rest = .ok T := by
  induction rest generalizing c run b time with
  | nil => exact ⟨_, rfl⟩
  | cons d rest ih =>
    rw [coarsen]
    split
    next starts =>
      have tail : d :: [] ++ rest <:+: rows := IsInfix.trans ⟨c :: run, [], by simp⟩ inside
      obtain ⟨T, rest⟩ := ih (d .time) rfl tail
      exact ⟨_, by rw [rest]; rfl⟩
    next =>
      have longer : c :: (run ++ [d]) ++ rest <:+: rows := by simpa using inside
      obtain ⟨b', more⟩ := mergeable c (run ++ [d]) (IsInfix.trans ⟨[], rest, rfl⟩ longer)
      have next : b.merge d = .ok b' := by
        rw [foldlM_append, merged] at more
        exact (bind_pure (b.merge d)).symm.trans more
      rw [next]
      exact ih time more longer

theorem exists_coarsen_start (span : Int) (mergeable : Mergeable (pre ++ c :: rest)) :
    ∃ T, coarsen span (c .time) (.ofCandle c) rest = .ok T := by
  have inside : c :: [] ++ rest <:+: pre ++ c :: rest := ⟨pre, [], by simp⟩
  exact exists_coarsen mergeable (c .time) rfl inside

theorem coarsen_append (starts : c.starts span) {A B : List Candle}
    (first : coarsen span time b pre = .ok A) (second : coarsen span (c .time) (.ofCandle c) rest = .ok B) :
    coarsen span time b (pre ++ c :: rest) = .ok (A ++ B) := by
  induction pre generalizing time b A with
  | nil =>
    cases first
    rw [nil_append, coarsen, if_pos starts, second]
    rfl
  | cons d pre ih =>
    rw [coarsen] at first
    rw [cons_append, coarsen]
    split at first
    next own =>
      obtain ⟨A', tail, whole⟩ := bind_eq_ok first
      cases whole
      rw [if_pos own, ih tail]
      rfl
    next own =>
      obtain ⟨b', merged, tail⟩ := bind_eq_ok first
      rw [if_neg own, merged]
      exact ih tail

theorem coarse_append (starts : c.starts span) {A B : List Candle} (first : coarse span pre = .ok A)
    (second : coarsen span (c .time) (.ofCandle c) rest = .ok B) : coarse span (pre ++ c :: rest) = .ok (A ++ B) := by
  induction pre with
  | nil =>
    cases first
    rw [nil_append, coarse, if_pos starts, second, nil_append]
  | cons d pre ih =>
    rw [coarse] at first
    rw [cons_append, coarse]
    split at first
    next own => rw [if_pos own, coarsen_append starts first second]
    next own => rw [if_neg own, ih first]

/-- Spans of a whole number of steps. -/
structure Stepped (span step : Int) : Prop where
  steps : 0 < step
  divides : step ∣ span
  spans : 0 < span

/-- A time that is reached in steps from the start of a span and lies in it. -/
structure Within (span step t now : Int) : Prop where
  aligned : span ∣ t
  reached : step ∣ now - t
  start_le : t ≤ now
  lt_stop : now < t + span

namespace Within

variable {step now : Int}

theorem start (pos : 0 < span) (aligned : span ∣ t) : Within span step t t :=
  ⟨aligned, by simp, le_refl t, by omega⟩

variable (within : Within span step t now)

include within

theorem step_le (divides : step ∣ span) : now + step ≤ t + span := by
  obtain ⟨k, reached⟩ := within.reached
  obtain ⟨n, rfl⟩ := divides
  have lt := within.lt_stop
  by_cases pos : 0 < step
  · have less : step * k < step * n := by omega
    have next : step * (k + 1) ≤ step * n :=
      Int.mul_le_mul_of_nonneg_left (Int.lt_of_mul_lt_mul_left less pos.le) pos.le
    rw [mul_add] at next
    omega
  · omega

theorem next (fits : Stepped span step) (starts : span ∣ now + step) : now + step = t + span := by
  have le := within.step_le fits.divides
  have start_le := within.start_le
  have pos := fits.steps
  have beyond : span ≤ now + step - t := Int.le_of_dvd (by omega) (Int.dvd_sub starts within.aligned)
  omega

theorem stay (fits : Stepped span step) (inside : ¬ span ∣ now + step) : Within span step t (now + step) := by
  have le := within.step_le fits.divides
  have start_le := within.start_le
  have pos := fits.steps
  have apart : now + step ≠ t + span := by
    intro same
    exact inside (same ▸ Int.dvd_add within.aligned (Int.dvd_refl _))
  refine ⟨within.aligned, ?_, by omega, by omega⟩
  have split : now + step - t = now - t + step := by ring
  exact split ▸ Int.dvd_add within.reached (Int.dvd_refl _)

end Within

theorem starts_iff (time : c .time = .int t) : c.starts span ↔ span ∣ t := by
  rw [Candle.starts, time]
  exact beq_iff_eq.trans Int.dvd_iff_emod_eq_zero.symm

theorem starts_time (nonzero : span ≠ 0) (time : c .time = .int t) :
    startBefore.starts (.int t) (.int span) = .ok (c.starts span) := by
  have remainder : arith .mod (.int t) (.int span) = .ok (.int (t.fmod span)) := by
    show arithInts .mod t span = _
    rw [arithInts, if_neg (by simpa using nonzero)]
  have starts : c.starts span = decide (t.fmod span = 0) := by
    rw [Bool.eq_iff_iff, starts_iff time, decide_eq_true_iff, Int.dvd_iff_fmod_eq_zero]
  rw [startBefore.starts, remainder]
  show holds .eq (.int (t.fmod span)) (.int 0) = _
  rw [holds_ints, starts]

section Fill

variable {source target step now : Int} {a : Archive} {P J B : List Candle} {b : Bucket}

theorem outcome_writeBucket (found : a.Has target (P ++ J)) (time : Value) (b : Bucket) :
    outcome (writeBucket (.int target) P.length time b) a =
      (.ok ⟨⟩, a.put (.int target) (.table (P ++ b.candle time :: J.drop 1))) := by
  have order : writeBucket (.int target) P.length time b =
      [CandleField.time, .open, .close, .high, .low, .volume].forM fun f =>
        setEntry (.int target) f P.length (b.candle time f) := by
    simp [writeBucket, List.forM, Bucket.candle]
  rw [order]
  exact outcome_writeRow (by decide) (fun _ _ => rfl) found

def closeBucket (res span : Value) (ti : Int) (b : Bucket) : ArchiveM PUnit := do
  if b.opening.isTrue then
    let before ← itemOf (← candles res).time (ti - 1)
    writeBucket res ti (← arith .add before span) b

theorem outcome_closeBucket (opened : b.opening.isTrue) (found : a.Has target (P ++ J))
    (last : P.getLast?.map (· .time) = some (.int (t - span))) :
    outcome (closeBucket (.int target) (.int span) P.length b) a =
      (.ok ⟨⟩, a.put (.int target) (.table (P ++ b.candle (.int t) :: J.drop 1))) := by
  obtain ⟨p, isLast, time⟩ := Option.map_eq_some_iff.mp last
  have item : itemOf (table (P ++ J)).time ((P.length : Int) - 1) = .ok (.int (t - span)) := by
    obtain ⟨P, rfl⟩ := getLast?_eq_some_iff.mp isLast
    have place : (((P ++ [p]).length : Nat) : Int) - 1 = P.length := by simp
    rw [place, ← time]
    exact itemOf_of_getElem? (by simp [time_table])
  have label : arith .add (.int (t - span)) (.int span) = .ok (.int t) := by
    show Except.ok (int (t - span + span)) = _
    rw [Int.sub_add_cancel]
  rw [closeBucket, if_pos opened, bind_ok (outcome_candles found), item, outcome_ok_bind,
    label, outcome_ok_bind]
  exact outcome_writeBucket found ..

theorem outcome_fillBuckets_cons (apart : source ≠ target) (nonzero : span ≠ 0)
    (stored : a.Has source (pre ++ c :: rest))
    (found : a.Has target (P ++ J)) (time : c .time = .int t) (ps : List Nat) :
    outcome (fillBuckets (.int source) (.int target) (.int span) (pre.length :: ps) P.length b) a =
      if c.starts span then
        if b.opening.isTrue then
          outcome (fillBuckets (.int source) (.int target) (.int span) ps (P.length + 1) (.ofCandle c))
            (a.put (.int target) (.table (P ++ b.candle (.int (t - span)) :: J.drop 1)))
        else outcome (fillBuckets (.int source) (.int target) (.int span) ps P.length (.ofCandle c)) a
      else outcome (do
        fillBuckets (.int source) (.int target) (.int span) ps P.length (← liftM (b.merge c))) a := by
  have item : itemOf (table (pre ++ c :: rest)).time pre.length = .ok (.int t) :=
    time ▸ Bucket.itemOf_column c .time
  have label : arith .sub (.int t) (.int span) = .ok (.int (t - span)) := rfl
  rw [fillBuckets, bind_ok (outcome_candles stored), item, outcome_ok_bind,
    starts_time nonzero time, outcome_ok_bind]
  split
  next starts =>
    split
    next opened =>
      have kept : (a.put (.int target) (.table (P ++ b.candle (.int (t - span)) :: J.drop 1))).find? (.int source) =
          some (.table (pre ++ c :: rest)) := (Archive.find?_put_ne a apart _).trans stored
      rw [label]
      rw [outcome_ok_bind, bind_ok (outcome_writeBucket found ..),
        bind_ok (outcome_pure ..), bind_ok (outcome_candles kept), Bucket.start_table,
        outcome_ok_bind]
    next =>
      rw [bind_ok (outcome_pure ..), bind_ok (outcome_candles stored), Bucket.start_table,
        outcome_ok_bind]
  next => rw [Bucket.add_table]

theorem range'_cons (pre : List Candle) (c : Candle) (rest : List Candle) : range' pre.length (c :: rest).length =
    pre.length :: range' (pre ++ [c]).length rest.length := by
  simp [range'_succ]

section Rest

variable (apart : source ≠ target) (fits : Stepped span step) (short : J.length ≤ 1) (found : a.Has target (P ++ J))
  (last : P.getLast?.map (· .time) = some (.int (t - span)) ∨ P = [] ∧ ∃ c ∈ rest, c.starts span)

include apart fits short found last

/-- Filling and closing the buckets of the candles that remain writes the coarse candles out of them, after those that
    are there. At most one candle, which is written anew, may stand where the next one goes. -/
theorem outcome_fill (within : Within span step t now) (times : Contiguous (now + step) step rest)
    (stored : a.Has source (pre ++ rest)) (opened : b.opening.isTrue)
    (opens : ∀ c ∈ rest, c.starts span → (c .open).isTrue)
    (sampled : coarsen span (.int t) b rest = .ok B) :
    outcome (do
      let (ti, b) ← fillBuckets (.int source) (.int target) (.int span) (range' pre.length rest.length) P.length b
      closeBucket (.int target) (.int span) ti b) a = (.ok ⟨⟩, a.put (.int target) (.table (P ++ B))) := by
  induction rest generalizing pre P J b t now a B with
  | nil =>
    obtain last | ⟨_, _, ⟨⟩, _⟩ := last
    cases sampled
    have closed := outcome_closeBucket opened found last
    rw [drop_eq_nil_of_le short] at closed
    exact closed
  | cons c rest ih =>
    obtain ⟨time, times⟩ := Contiguous.cons_iff.mp times
    have stored' : a.Has source (pre ++ [c] ++ rest) := by simpa using stored
    rw [coarsen] at sampled
    rw [range'_cons, outcome_bind, outcome_fillBuckets_cons apart fits.spans.ne' stored found time, if_pos opened,
      drop_eq_nil_of_le short]
    split at sampled
    next starts =>
      obtain ⟨B, sampled', whole⟩ := bind_eq_ok sampled
      cases whole
      have next := within.next fits ((starts_iff time).mp starts)
      have label : now + step - span = t := by omega
      rw [time] at sampled'
      have more := ih (P := P ++ [b.candle (.int t)]) (J := [])
        (a := a.put (.int target) (.table (P ++ [b.candle (.int t)]))) (by decide)
        (by rw [append_nil]; exact Archive.find?_put_self ..) (.inl (by simp [label, Bucket.candle]))
        (.start fits.spans ((starts_iff time).mp starts)) times ((Archive.find?_put_ne a apart _).trans stored')
        (opens c (.head _) starts) (fun d member => opens d (.tail _ member)) sampled'
      have grown : ((P ++ [b.candle (.int t)]).length : Int) = P.length + 1 := by simp
      rw [outcome_bind, grown, Archive.put_put, append_assoc] at more
      rw [if_pos starts, label]
      exact more
    next inside =>
      obtain ⟨b', merged, sampled⟩ := bind_eq_ok sampled
      have last' : P.getLast?.map (· .time) = some (.int (t - span)) ∨ P = [] ∧ ∃ c ∈ rest, c.starts span := by
        refine last.imp_right fun ⟨empty, d, member, starts⟩ => ⟨empty, d, ?_, starts⟩
        exact (mem_cons.mp member).resolve_left fun same => inside (same ▸ starts)
      have more := ih short found last' (within.stay fits (mt (starts_iff time).mpr inside)) times stored'
        (Bucket.merge_opening merged ▸ opened) (fun d member => opens d (.tail _ member)) sampled
      rw [outcome_bind] at more
      rw [if_neg inside, merged, outcome_ok_bind]
      exact more

/-- What is done with the fine candles from the place `i` on. -/
def sampleFrom (source target span : Value) (n i : Nat) (ti : Int) : ArchiveM PUnit := do
  let (ti, b) ← fillBuckets source target span ((range n).drop i) ti {}
  closeBucket target span ti b

theorem outcome_sample (time : c .time = .int t) (starts : c.starts span) (times : Contiguous (t + step) step rest)
    (stored : a.Has source (pre ++ c :: rest)) (opens : ∀ d ∈ c :: rest, d.starts span → (d .open).isTrue)
    (sampled : coarsen span (.int t) (.ofCandle c) rest = .ok B) :
    outcome (sampleFrom (.int source) (.int target) (.int span) (pre ++ c :: rest).length pre.length P.length) a =
      (.ok ⟨⟩, a.put (.int target) (.table (P ++ B))) := by
  have places : (range (pre ++ c :: rest).length).drop pre.length =
      pre.length :: range' (pre ++ [c]).length rest.length := by
    simp [range_eq_range', range'_succ]
  have stored' : a.Has source (pre ++ [c] ++ rest) := by simpa using stored
  have more := outcome_fill apart fits short found last (.start fits.spans ((starts_iff time).mp starts)) times stored'
    (opens c (.head _) starts) (fun d member => opens d (.tail _ member)) sampled
  rw [outcome_bind] at more
  rw [sampleFrom, places, outcome_bind, outcome_fillBuckets_cons apart fits.spans.ne' stored found time, if_pos starts,
    if_neg (by decide)]
  exact more

end Rest

theorem firstStart_table (nonzero : span ≠ 0) (times : ∀ d ∈ pre ++ c :: rest, ∃ t : Int, d .time = .int t)
    (none : ∀ d ∈ pre, ¬ d.starts span) (starts : c.starts span) :
    firstStart (.table (pre ++ c :: rest)) (.int span) = .ok pre.length := by
  -- The places are counted from the candles that were passed over.
  have go (i : Nat) : firstStart.go (.int span) ((pre ++ c :: rest).map (· .time)) i = .ok (i + pre.length) := by
    induction pre generalizing i with
    | nil =>
      obtain ⟨t, time⟩ := times c (.head _)
      rw [nil_append, map_cons, firstStart.go, time, starts_time nonzero time, starts]
      rfl
    | cons d pre ih =>
      obtain ⟨t, time⟩ := times d (.head _)
      have other : d.starts span = false := Bool.eq_false_iff.mpr (none d (.head _))
      rw [cons_append, map_cons, firstStart.go, time, starts_time nonzero time, other,
        show i + (d :: pre).length = i + 1 + pre.length by simp; omega]
      exact ih (fun d member => times d (.tail _ member))
        (fun d member => none d (.tail _ member)) (i + 1)
  exact (go 0).trans (by rw [Nat.zero_add])

variable {first : Int}

theorem startBefore_table (fits : Stepped span step) (times : Contiguous first step rows) {k m : Nat}
    (inside : m < rows.length) (le : k ≤ m) (starts : span ∣ first + step * k) :
    startBefore (.table rows) (.int span) (.int (first + step * k)) m = .ok k := by
  induction m with
  | zero =>
    cases Nat.le_zero.mp le
    rfl
  | succ m ih =>
    obtain ⟨d, found⟩ : ∃ d, rows[m + 1]? = some d := ⟨_, getElem?_eq_getElem inside⟩
    have time := times (m + 1) d found
    have item : itemOf (table rows).time ((m : Int) + 1) = .ok (.int (first + step * (m + 1 : Nat))) := by
      rw [← time, ← Int.natCast_succ]
      exact itemOf_of_getElem? (by simp [time_table, found])
    rw [startBefore, item, ok_bind, holds_ints, ok_bind]
    by_cases same : k = m + 1
    · subst same
      rw [decide_eq_true (le_refl _), starts_time fits.spans.ne' time, (starts_iff time).mpr starts]
      rfl
    · have later : step * k < step * (m + 1 : Nat) := Int.mul_lt_mul_of_pos_left (by omega) fits.steps
      have above : ¬ first + step * (m + 1 : Nat) ≤ first + step * k := by omega
      rw [decide_eq_false above]
      exact ih (by omega) (by omega)

theorem outcome_downsample_none (stored : a.Has source rows)
    (fresh : a.find? (.int target) = none) : outcome (downsample (.int source) (.int target)) a = outcome (do
        let i ← firstStart (.table rows) (.int (target * 60))
        sampleFrom (.int source) (.int target) (.int (target * 60)) rows.length i 0 : ArchiveM PUnit)
        (a.put (.int target) {}) := by
  have span : arith .mul (.int target) (.int 60) = .ok (.int (target * 60)) := rfl
  unfold downsample
  rw [bind_ok (outcome_candles stored)]
  simp only [isKey, Bool.not_true, Bool.false_eq_true, if_false]
  rw [get_bind, span, outcome_ok_bind, fresh]
  rw [bind_ok (outcome_modify ..), bind_ok (outcome_pure ..), if_neg (by decide), time_table,
    length_map]
  rfl

theorem outcome_downsample_some (nonempty : rows ≠ []) (stored : a.Has source rows)
    (found : a.Has target (P ++ [c])) (time : c .time = .int t) :
    outcome (downsample (.int source) (.int target)) a = outcome (do
        let i ← if t = 0 then firstStart (.table rows) (.int (target * 60))
          else startBefore (.table rows) (.int (target * 60)) (.int t) (rows.length - 1)
        sampleFrom (.int source) (.int target) (.int (target * 60)) rows.length i P.length : ArchiveM PUnit) a := by
  have span : arith .mul (.int target) (.int 60) = .ok (.int (target * 60)) := rfl
  have length : ((table (P ++ [c])).time.length : Int) - 1 = P.length := by simp [time_table]
  have item : itemOf (table (P ++ [c])).time P.length = .ok (.int t) := by
    rw [← time]
    exact itemOf_of_getElem? (by simp [time_table])
  have filled : (rows.length == 0) = false := by simpa using nonempty
  unfold downsample
  rw [bind_ok (outcome_candles stored)]
  simp only [isKey, Bool.not_true, Bool.false_eq_true, if_false]
  rw [get_bind, span, outcome_ok_bind, found]
  dsimp only
  rw [length, item, outcome_ok_bind, bind_ok (outcome_pure ..), time_table,
    length_map, filled]
  by_cases zero : t = 0
  · subst zero
    rfl
  · have later : (int t).isTrue := by
      show (t != 0) = true
      simpa using zero
    rw [if_pos later, if_neg Bool.false_ne_true]
    simp only [zero, if_false]
    rfl

variable (apart : source ≠ target) (fits : Stepped (target * 60) step)
  (times : Contiguous first step (pre ++ c :: rest)) (starts : c.starts (target * 60))
  (opens : ∀ d ∈ c :: rest, d.starts (target * 60) → (d .open).isTrue) (stored : a.Has source (pre ++ c :: rest))
  (sampled : coarsen (target * 60) (c .time) (.ofCandle c) rest = .ok B)

include apart fits times starts opens stored sampled

theorem outcome_downsample_new (none : ∀ d ∈ pre, ¬ d.starts (target * 60))
    (more : ∃ d ∈ rest, d.starts (target * 60)) (fresh : a.find? (.int target) = .none) :
    outcome (downsample (.int source) (.int target)) a = (.ok ⟨⟩, a.put (.int target) (.table B)) := by
  obtain ⟨time, times'⟩ := Contiguous.cons_iff.mp (Contiguous.append_iff.mp times).2
  have stored' : (a.put (.int target) {}).Has source (pre ++ c :: rest) :=
    (Archive.find?_put_ne a apart _).trans stored
  have found : (a.put (.int target) {}).Has target ([] ++ []) := Archive.find?_put_self ..
  rw [time] at sampled
  have whole := outcome_sample apart fits (by decide) found (.inr ⟨rfl, more⟩) time starts times' stored' opens
    sampled
  rw [Archive.put_put] at whole
  rw [outcome_downsample_none stored fresh, firstStart_table fits.spans.ne' times.times none starts,
    outcome_ok_bind]
  exact whole

theorem outcome_downsample_known (time : c .time = .int t) (since : 0 < t) {p j : Candle}
    (before : p .time = .int (t - target * 60)) (last : j .time = .int t) (found : a.Has target (P ++ [p] ++ [j])) :
    outcome (downsample (.int source) (.int target)) a = (.ok ⟨⟩, a.put (.int target) (.table (P ++ [p] ++ B))) := by
  obtain ⟨time', times'⟩ := Contiguous.cons_iff.mp (Contiguous.append_iff.mp times).2
  have place : t = first + step * pre.length := int.inj (time.symm.trans time')
  rw [← place] at times'
  rw [time] at sampled
  have whole := outcome_sample apart fits (J := [j]) (Nat.le_refl 1) found (.inl (by simp [before])) time starts
    times' stored opens sampled
  have start : startBefore (.table (pre ++ c :: rest)) (.int (target * 60)) (.int t) ((pre ++ c :: rest).length - 1) =
      .ok pre.length := by
    rw [place] at time ⊢
    exact startBefore_table fits times (by simp) (by simp) ((starts_iff time).mp starts)
  rw [outcome_downsample_some (by simp) stored found last, if_neg since.ne', start, outcome_ok_bind]
  exact whole

end Fill

/-- The candles before the last one that starts a span: the coarse candles out of them are complete. -/
def settled (span : Int) : List Candle → List Candle
  | [] => []
  | c :: rest => if rest.any (Candle.starts span) then c :: settled span rest else []

theorem settled_append (none : ∀ d ∈ rest, ¬ d.starts span) (starts : c.starts span) :
    settled span (pre ++ c :: rest) = pre := by
  induction pre with
  | nil => simpa [settled] using none
  | cons d pre ih => simp [settled, starts, ih]

theorem exists_first_start (some : ∃ c ∈ rows, c.starts span) :
    ∃ pre c rest, rows = pre ++ c :: rest ∧ c.starts span ∧ ∀ d ∈ pre, ¬ d.starts span := by
  obtain ⟨c, found⟩ := Option.isSome_iff_exists.mp (find?_isSome.mpr some)
  obtain ⟨starts, pre, rest, same, none⟩ := find?_eq_some_iff_append.mp found
  exact ⟨pre, c, rest, same, starts, by simpa using none⟩

theorem exists_last_start (some : ∃ c ∈ rows, c.starts span) :
    ∃ pre c rest, rows = pre ++ c :: rest ∧ c.starts span ∧ ∀ d ∈ rest, ¬ d.starts span := by
  obtain ⟨rest, c, pre, same, starts, none⟩ := exists_first_start (show ∃ c ∈ rows.reverse, c.starts span by simpa using some)
  refine ⟨pre.reverse, c, rest.reverse, ?_, starts, by simpa using none⟩
  rw [← reverse_reverse rows, same]
  simp

/-- Fine candles from which coarse ones can be made: their times follow each other in steps, no coarse candle opens
    at zero, and they can be put together. -/
structure Sampleable (span step : Int) (rows : List Candle) : Prop where
  times : ∃ first, 0 < first ∧ Contiguous first step rows
  opens : ∀ c ∈ rows, c.starts span → (c .open).isTrue
  mergeable : Mergeable rows

/-- Later candles: there are no fewer, and the settled ones are the same. -/
structure Extends (span : Int) (old new : List Candle) : Prop where
  length_le : old.length ≤ new.length
  settled : settled span old <+: new

def refresh (source target : Int) (rows : List Candle) : ArchiveM PUnit := do
  modify (·.put (.int source) (.table rows))
  downsample (.int source) (.int target)

section Refresh

variable {source target step first : Int} {a : Archive} {old new T : List Candle}

theorem Mergeable.part (mergeable : Mergeable rows) (inside : pre <:+: rows) : Mergeable pre :=
  fun c run part => mergeable c run (part.trans inside)

theorem coarse_none (none : ∀ d ∈ rows, ¬ d.starts span) : coarse span rows = .ok [] := by
  induction rows with
  | nil => rfl
  | cons d rows ih =>
    rw [coarse, if_neg (none d (.head _))]
    exact ih fun d member => none d (.tail _ member)

theorem exists_coarse (span : Int) (mergeable : Mergeable rows) : ∃ T, coarse span rows = .ok T := by
  by_cases some : ∃ c ∈ rows, c.starts span
  · obtain ⟨pre, c, rest, rfl, starts, none⟩ := exists_first_start some
    obtain ⟨B, sampled⟩ := exists_coarsen_start span mergeable
    exact ⟨_, coarse_append starts (coarse_none none) sampled⟩
  · exact ⟨[], coarse_none fun c member starts => some ⟨c, member, starts⟩⟩

theorem coarsen_single (none : ∀ d ∈ rest, ¬ d.starts span)
    (sampled : coarsen span time b rest = .ok T) : ∃ d : Candle, T = [d] ∧ d .time = time := by
  induction rest generalizing b with
  | nil =>
    cases sampled
    exact ⟨_, rfl, rfl⟩
  | cons d rest ih =>
    rw [coarsen, if_neg (none d (.head _))] at sampled
    obtain ⟨b', _, sampled⟩ := bind_eq_ok sampled
    exact ih (fun d member => none d (.tail _ member)) sampled

theorem next_start {now : Int} (fits : Stepped span step) (within : Within span step t now)
    (times : Contiguous (now + step) step (rest ++ [c])) (none : ∀ d ∈ rest, ¬ d.starts span) (starts : c.starts span) :
    c .time = .int (t + span) := by
  induction rest generalizing now with
  | nil =>
    obtain ⟨time, _⟩ := Contiguous.cons_iff.mp times
    rw [time, within.next fits ((starts_iff time).mp starts)]
  | cons d rest ih =>
    obtain ⟨time, times⟩ := Contiguous.cons_iff.mp times
    have inside := mt (starts_iff time).mpr (none d (.head _))
    exact ih (within.stay fits inside) times fun d member => none d (.tail _ member)

theorem coarse_settled (fits : Stepped span step) (mergeable : Mergeable pre)
    (times : Contiguous first step (pre ++ [c])) (some : ∃ d ∈ pre, d.starts span) (starts : c.starts span)
    (time : c .time = .int t) : ∃ A p, coarse span pre = .ok (A ++ [p]) ∧ p .time = .int (t - span) := by
  obtain ⟨q, d, r, rfl, startsD, none⟩ := exists_last_start some
  rw [append_assoc] at times
  obtain ⟨timeD, timesR⟩ := Contiguous.cons_iff.mp (Contiguous.append_iff.mp times).2
  have next := next_start fits (.start fits.spans ((starts_iff timeD).mp startsD)) timesR none starts
  obtain ⟨A, before⟩ := exists_coarse span (mergeable.part ⟨[], d :: r, rfl⟩)
  obtain ⟨B, sampled⟩ := exists_coarsen_start span mergeable
  obtain ⟨p, rfl, timeP⟩ := coarsen_single none sampled
  refine ⟨A, p, coarse_append startsD before sampled, ?_⟩
  have same := int.inj (time.symm.trans next)
  rw [timeP, timeD]
  congr 1
  omega

theorem exists_two_starts (two : 2 ≤ rows.countP (Candle.starts span)) :
    ∃ pre c rest, rows = pre ++ c :: rest ∧ c.starts span ∧ (∀ d ∈ rest, ¬ d.starts span) ∧
      ∃ d ∈ pre, d.starts span := by
  obtain ⟨pre, c, rest, rfl, starts, none⟩ := exists_last_start (countP_pos_iff.mp (Nat.zero_lt_of_lt two))
  have after : rest.countP (Candle.starts span) = 0 := countP_eq_zero.mpr none
  rw [countP_append, countP_cons, after, if_pos starts] at two
  exact ⟨pre, c, rest, rfl, starts, none, countP_pos_iff.mp (by omega)⟩

theorem coarse_last (mergeable : Mergeable rows) (some : ∃ c ∈ rows, c.starts span)
    (sampled : coarse span rows = .ok T) :
    ∃ c d, settled span rows ++ [c] <+: rows ∧ T.getLast? = .some d ∧ d .time = c .time := by
  obtain ⟨pre, c, rest, rfl, starts, none⟩ := exists_last_start some
  obtain ⟨A, before⟩ := exists_coarse span (mergeable.part ⟨[], c :: rest, rfl⟩)
  obtain ⟨B, after⟩ := exists_coarsen_start span mergeable
  cases (coarse_append starts before after).symm.trans sampled
  obtain ⟨d, rfl, time⟩ := coarsen_single none after
  exact ⟨c, d, ⟨rest, by simp [settled_append none starts]⟩, by simp, time⟩

variable (apart : source ≠ target) (fits : Stepped (target * 60) step)

include apart fits

theorem outcome_downsample_fresh (sampleable : Sampleable (target * 60) step rows)
    (two : 2 ≤ rows.countP (Candle.starts (target * 60))) (sampled : coarse (target * 60) rows = .ok T)
    (stored : a.Has source rows) (fresh : a.find? (.int target) = none) :
    outcome (downsample (.int source) (.int target)) a = (.ok ⟨⟩, a.put (.int target) (.table T)) := by
  obtain ⟨first, since, times⟩ := sampleable.times
  obtain ⟨pre, c, rest, rfl, starts, none⟩ := exists_first_start (countP_pos_iff.mp (Nat.zero_lt_of_lt two))
  obtain ⟨B, after⟩ := exists_coarsen_start (target * 60) sampleable.mergeable
  cases (coarse_append starts (coarse_none none) after).symm.trans sampled
  have before : pre.countP (Candle.starts (target * 60)) = 0 := countP_eq_zero.mpr none
  rw [countP_append, countP_cons, before, if_pos starts] at two
  exact outcome_downsample_new apart fits times starts
    (fun d member => sampleable.opens d (mem_append_right pre member)) stored after none
    (countP_pos_iff.mp (by omega)) fresh

theorem outcome_downsample_extends (sampleable : Sampleable (target * 60) step old)
    (two : 2 ≤ old.countP (Candle.starts (target * 60))) (sampled : coarse (target * 60) old = .ok T)
    (later : Sampleable (target * 60) step new) (follows : Extends (target * 60) old new)
    (stored : a.Has source new) (found : a.Has target T) :
    2 ≤ new.countP (Candle.starts (target * 60)) ∧ ∃ T', coarse (target * 60) new = .ok T' ∧
      outcome (downsample (.int source) (.int target)) a = (.ok ⟨⟩, a.put (.int target) (.table T')) := by
  obtain ⟨first, since, times⟩ := sampleable.times
  obtain ⟨first', _, times'⟩ := later.times
  obtain ⟨pre, c, rest, rfl, starts, none, some⟩ := exists_two_starts two
  obtain ⟨new', whole⟩ := follows.settled
  rw [settled_append none starts] at whole
  -- What follows the settled candles begins at the time of the last start, because the first candle is settled.
  obtain ⟨c', rest', rfl⟩ : ∃ c' rest', new' = c' :: rest' := by
    have longer := follows.length_le
    rw [← whole, length_append, length_append, length_cons] at longer
    exact exists_cons_of_length_pos (by omega)
  subst whole
  obtain ⟨time, _⟩ := Contiguous.cons_iff.mp (Contiguous.append_iff.mp times).2
  obtain ⟨time', _⟩ := Contiguous.cons_iff.mp (Contiguous.append_iff.mp times').2
  have begins : first' = first := by
    obtain ⟨d, member, _⟩ := some
    obtain ⟨d, pre, rfl⟩ := exists_cons_of_ne_nil (ne_nil_of_mem member)
    have own := (Contiguous.cons_iff.mp times).1
    have own' := (Contiguous.cons_iff.mp times').1
    exact int.inj (own'.symm.trans own)
  subst begins
  have starts' : c'.starts (target * 60) := (starts_iff time').mpr ((starts_iff time).mp starts)
  have short : Contiguous first' step (pre ++ [c]) := by
    rw [append_cons] at times
    exact (Contiguous.append_iff.mp times).1
  obtain ⟨A, p, before, timeP⟩ := coarse_settled fits
    (sampleable.mergeable.part ⟨[], c :: rest, rfl⟩) short some starts time
  obtain ⟨B, after⟩ := exists_coarsen_start (target * 60) sampleable.mergeable
  obtain ⟨B', after'⟩ := exists_coarsen_start (target * 60) later.mergeable
  cases (coarse_append starts before after).symm.trans sampled
  obtain ⟨j, rfl, timeJ⟩ := coarsen_single none after
  refine ⟨?_, _, coarse_append starts' before after', ?_⟩
  · have more := countP_pos_iff.mpr some
    rw [countP_append, countP_cons, if_pos starts']
    omega
  · refine outcome_downsample_known apart fits times' starts'
      (fun d member => later.opens d (mem_append_right pre member)) stored after' time' ?_ timeP (timeJ.trans time) found
    have steps' : 0 ≤ step * (pre.length : Int) := Int.mul_nonneg fits.steps.le (Int.natCast_nonneg _)
    omega

theorem outcome_refreshes {updates : List (List Candle)}
    (sources : ∀ rows ∈ old :: updates, Sampleable (target * 60) step rows)
    (two : 2 ≤ old.countP (Candle.starts (target * 60))) (follow : (old :: updates).IsChain (Extends (target * 60)))
    (sampled : coarse (target * 60) old = .ok T) (found : a.Has target T) :
    2 ≤ (updates.getLastD old).countP (Candle.starts (target * 60)) ∧
      ∃ T' a', coarse (target * 60) (updates.getLastD old) = .ok T' ∧
        outcome (updates.forM (refresh source target)) a = (.ok ⟨⟩, a') ∧ a'.Has target T' := by
  -- Two candles that start a span are there after every change, so the next one finds settled candles again.
  induction updates generalizing old T a with
  | nil => exact ⟨two, T, a, sampled, rfl, found⟩
  | cons new updates ih =>
    obtain ⟨first, follow⟩ := isChain_cons_cons.mp follow
    obtain ⟨own, sources⟩ := forall_mem_cons.mp sources
    have stored := Archive.find?_put_self a source (.table new)
    have kept := (Archive.find?_put_ne a apart.symm (.table new)).trans found
    obtain ⟨two', T', sampled', made⟩ := outcome_downsample_extends apart fits own two sampled
      (sources new (.head _)) first stored kept
    have whole : outcome (refresh source target new) a =
        (.ok ⟨⟩, ((a.put (.int source) (.table new)).put (.int target) (.table T'))) :=
      (bind_ok (outcome_modify ..)).trans made
    obtain ⟨two, T, a', sampled, more, found⟩ := ih sources two' follow sampled'
      (Archive.find?_put_self (a.put (.int source) (.table new)) target (.table T'))
    rw [getLastD_cons]
    exact ⟨two, T, a', sampled, (bind_ok whole).trans more, found⟩

end Refresh

/-- Let fine candles change only from the start of the last coarse candle on, and let the coarse ones be computed
    after every change. In the end they are the ones that are computed from the last fine candles alone, and the last
    of them starts where the settled fine candles end. -/
theorem downsample_refreshed {source target step : Int} (positive : 0 < target) (apart : source ≠ target)
    (steps : 0 < step) (divides : step ∣ target * 60) {old : List Candle} {updates : List (List Candle)}
    (sources : ∀ rows ∈ old :: updates, Sampleable (target * 60) step rows)
    (two : 2 ≤ old.countP (Candle.starts (target * 60))) (follow : (old :: updates).IsChain (Extends (target * 60)))
    {a : Archive} (fresh : a.find? (.int target) = none) :
    ∃ coarse : List Candle,
      (∃ a', outcome ((old :: updates).forM (refresh source target)) a = (.ok ⟨⟩, a') ∧
        a'.find? (.int target) = some (.table coarse)) ∧
      (∀ b : Archive, b.find? (.int source) = some (.table (updates.getLastD old)) → b.find? (.int target) = none →
        ∃ b', outcome (downsample (.int source) (.int target)) b = (.ok ⟨⟩, b') ∧
          b'.find? (.int target) = some (.table coarse)) ∧
      ∃ c d, settled (target * 60) (updates.getLastD old) ++ [c] <+: updates.getLastD old ∧
        coarse.getLast? = some d ∧ d .time = c .time := by
  have fits : Stepped (target * 60) step := ⟨steps, divides, by omega⟩
  have own := sources old mem_cons_self
  obtain ⟨T, sampled⟩ := exists_coarse (target * 60) own.mergeable
  have first := outcome_downsample_fresh apart fits own two sampled
    (Archive.find?_put_self a source (.table old)) ((Archive.find?_put_ne a apart.symm (.table old)).trans fresh)
  have begun : outcome (refresh source target old) a =
      (.ok ⟨⟩, ((a.put (.int source) (.table old)).put (.int target) (.table T))) :=
    (bind_ok (outcome_modify ..)).trans first
  obtain ⟨two', T', a', sampled', kept, found⟩ := outcome_refreshes apart fits sources two follow
    sampled (Archive.find?_put_self (a.put (.int source) (.table old)) target (.table T))
  have last : Sampleable (target * 60) step (updates.getLastD old) := sources _ (getLastD_mem_cons ..)
  refine ⟨T', ⟨a', (bind_ok begun).trans kept, found⟩, fun b stored fresh => ?_, ?_⟩
  · exact ⟨_, outcome_downsample_fresh apart fits last two' sampled' stored fresh,
      Archive.find?_put_self ..⟩
  · exact coarse_last last.mergeable (List.countP_pos_iff.mp (Nat.zero_lt_of_lt two')) sampled'

theorem mem_flatCandles {step : Int} (member : c ∈ flatCandles t step prices) :
    ∃ t, ∃ price ∈ prices, c = flatCandle t price := by
  induction prices generalizing t with
  | nil => cases member
  | cons price prices ih =>
    obtain rfl | member := mem_cons.mp member
    · exact ⟨t, price, (.head _), rfl⟩
    · obtain ⟨t, price, member, same⟩ := ih member
      exact ⟨t, price, mem_cons_of_mem _ member, same⟩

theorem flatCandles_sampleable (span step : Int) (since : 0 < t)
    (nonzero : ∀ price ∈ prices, price ≠ 0) : Sampleable span step (flatCandles t step prices) where
  times := ⟨t, since, flatCandles_contiguous t step prices⟩
  opens := by
    intro c member _
    obtain ⟨t, price, h, rfl⟩ := mem_flatCandles member
    show (price != 0) = true
    simpa using nonzero price h
  mergeable := by
    refine mergeable_of_numbers (p := fun v => ∃ n, v = .int n) ?_ fun c member => ?_
    · rintro _ _ ⟨m, rfl⟩ ⟨n, rfl⟩
      exact ⟨.int (m + n), rfl, m + n, rfl⟩
    · obtain ⟨t, price, _, rfl⟩ := mem_flatCandles member
      exact ⟨rfl, rfl, 1, rfl⟩

/-- Candles of five minutes are changed and grow while those of a quarter of an hour are kept up. -/
theorem downsample_refreshed_quarters :
    ∃ (coarse : List Candle) (a' b' : Archive),
      outcome ([flatCandles 600 300 [7, 8, 9, 7, 8], flatCandles 600 300 [7, 8, 9, 7, 5, 6],
        flatCandles 600 300 [7, 8, 9, 7, 6, 4, 3, 2]].forM (refresh 5 15)) [] = (.ok ⟨⟩, a') ∧
      outcome (downsample (.int 5) (.int 15)) [(.int 5, .table (flatCandles 600 300 [7, 8, 9, 7, 6, 4, 3, 2]))] =
        (.ok ⟨⟩, b') ∧
      a'.find? (.int 15) = some (.table coarse) ∧ b'.find? (.int 15) = some (.table coarse) := by
  have sources : ∀ rows ∈ [flatCandles 600 300 [7, 8, 9, 7, 8], flatCandles 600 300 [7, 8, 9, 7, 5, 6],
      flatCandles 600 300 [7, 8, 9, 7, 6, 4, 3, 2]], Sampleable (15 * 60) 300 rows := by
    simp only [List.forall_mem_cons]
    exact ⟨flatCandles_sampleable _ _ (by decide) (by decide), flatCandles_sampleable _ _ (by decide) (by decide),
      flatCandles_sampleable _ _ (by decide) (by decide), nofun⟩
  have follow : [flatCandles 600 300 [7, 8, 9, 7, 8], flatCandles 600 300 [7, 8, 9, 7, 5, 6],
      flatCandles 600 300 [7, 8, 9, 7, 6, 4, 3, 2]].IsChain (Extends (15 * 60)) :=
    .cons_cons ⟨by decide, _, rfl⟩ (.cons_cons ⟨by decide, _, rfl⟩ (.singleton _))
  have apart : (5 : Int) ≠ 15 := by decide
  obtain ⟨coarse, ⟨a', kept, found⟩, batch, _⟩ := downsample_refreshed (by decide) apart (by decide) (by decide)
    sources (by decide) follow (a := []) rfl
  obtain ⟨b', made, found'⟩ := batch [(.int 5, .table (flatCandles 600 300 [7, 8, 9, 7, 6, 4, 3, 2]))] rfl rfl
  exact ⟨coarse, a', b', kept, made, found, found'⟩

end ArchiveM

end PineEngine
