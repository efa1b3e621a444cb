import PineEngine.Proofs.Sampling

/-! # What a coarse candle sums up

The fine candles are parted by time: one span after the other, from the first candle that starts one. Each span that has
candles gives one coarse candle (`downsample_summaries`): it opens as the first of them and closes as the last, its high
and its low are the extremes, and its volume is the sum.
-/

namespace PineEngine

open Computation List

abbrev Bar := CandleField → Int

namespace Bar

variable {b : Bar} {bars D rest pre : List Bar} {span step t now : Int} {candles : List Candle}

def candle (b : Bar) : Candle :=
  fun f => .int (b f)

def summary (time : Int) (bars : List Bar) : Bar
  | .time => time
  | .open => (bars.head?.map (· .open)).getD 0
  | .close => (bars.getLast?.map (· .close)).getD 0
  | .high => (bars.map (· .high)).max?.getD 0
  | .low => (bars.map (· .low)).min?.getD 0
  | .volume => (bars.map (· .volume)).sum

/-- The bars of the span with a number, counted from a time on. -/
def bucket (span t : Int) (k : Nat) (bars : List Bar) : List Bar :=
  bars.filter fun b => t + k * span ≤ b .time ∧ b .time < t + (k + 1) * span

def Summed (span t : Int) (bars : List Bar) (candles : List Candle) : Prop :=
  ∃ n : Nat, (∀ k, bucket span t k bars ≠ [] ↔ k < n) ∧
    candles = (range n).map fun k : Nat => (summary (t + k * span) (bucket span t k bars)).candle

def merged (bars : List Bar) : ArchiveM.Bucket :=
  .ofCandle (summary 0 bars).candle

theorem merged_candle (bars : List Bar) (t : Int) : (merged bars).candle (.int t) = (summary t bars).candle := by
  funext f
  cases f <;> rfl

theorem merged_singleton (b : Bar) : .ofCandle b.candle = merged [b] := by
  simp [merged, candle, summary, ArchiveM.Bucket.ofCandle]

theorem summary_concat (some : D ≠ []) (b : Bar) : summary t (D ++ [b]) = fun
    | .time => t
    | .open => summary t D .open
    | .close => b .close
    | .high => max (summary t D .high) (b .high)
    | .low => min (summary t D .low) (b .low)
    | .volume => summary t D .volume + b .volume := by
  obtain ⟨d, D, rfl⟩ := exists_cons_of_ne_nil some
  funext f
  cases f <;> simp [summary, max?, min?, getLast?_cons, Int.add_assoc]

theorem merge_merged (some : D ≠ []) (b : Bar) : (merged D).merge b.candle = .ok (merged (D ++ [b])) := by
  have larger (m n : Int) : (if decide (n < m) then Value.int m else .int n) = .int (max n m) := by
    by_cases less : n < m <;> simp [less] <;> omega
  have smaller (m n : Int) : (if decide (m < n) then Value.int m else .int n) = .int (min n m) := by
    by_cases less : m < n <;> simp [less] <;> omega
  rw [merged, merged, summary_concat some]
  simp only [ArchiveM.Bucket.merge, ArchiveM.Bucket.ofCandle, candle, Value.holds_ints, ok_bind, larger, smaller]
  rfl

theorem Summed.nil : Summed span t [] [] :=
  ⟨0, by simp [bucket], rfl⟩

theorem Summed.cons (spans : 0 < span) (some : D ≠ [])
    (inside : ∀ b ∈ D, t ≤ b .time ∧ b .time < t + span) (later : ∀ b ∈ rest, t + span ≤ b .time)
    (summed : Summed span (t + span) rest candles) :
    Summed span t (D ++ rest) ((summary t D).candle :: candles) := by
  obtain ⟨n, stands, rfl⟩ := summed
  have shift (k : Nat) : t + ((k + 1 : Nat) : Int) * span = t + span + k * span := by
    push_cast
    ring
  have first : bucket span t 0 (D ++ rest) = D := by
    rw [bucket, filter_append, filter_eq_self.mpr, filter_eq_nil_iff.mpr, append_nil]
    · intro b mem
      have after := later b mem
      simp
      omega
    · simpa using inside
  have next (k : Nat) : bucket span t (k + 1) (D ++ rest) = bucket span (t + span) k rest := by
    have reached : 0 ≤ (k : Int) * span := Int.mul_nonneg (Int.natCast_nonneg k) spans.le
    rw [bucket, filter_append, filter_eq_nil_iff.mpr, nil_append]
    · refine filter_congr fun b _ => ?_
      rw [shift, show t + (((k + 1 : Nat) : Int) + 1) * span = t + span + (k + 1) * span by push_cast; ring]
    · intro b mem
      have before := (inside b mem).2
      rw [shift]
      simp
      omega
  refine ⟨n + 1, fun k => ?_, ?_⟩
  · cases k with
    | zero => simpa [first] using some
    | succ k => simpa [next] using stands k
  · rw [range_succ_eq_map, map_cons, map_map, first]
    simp only [Function.comp_def, Nat.succ_eq_add_one, next, shift]
    simp

theorem Summed.prepend (spans : 0 < span) (earlier : ∀ b ∈ pre, b .time < t)
    (summed : Summed span t bars candles) : Summed span t (pre ++ bars) candles := by
  have same (k : Nat) : bucket span t k (pre ++ bars) = bucket span t k bars := by
    have reached : 0 ≤ (k : Int) * span := Int.mul_nonneg (Int.natCast_nonneg k) spans.le
    rw [bucket, filter_append, filter_eq_nil_iff.mpr, nil_append]
    · rfl
    · intro b mem
      have before := earlier b mem
      simp
      omega
  simpa only [Summed, same] using summed

theorem time_of_contiguous {first : Int} (steps : 0 < step) (times : Contiguous first step (bars.map candle))
    (mem : b ∈ bars) : first ≤ b .time ∧ b .time < first + step * bars.length := by
  obtain ⟨i, inside, rfl⟩ := mem_iff_getElem.mp mem
  have time := Value.int.inj (times i (bars[i].candle) (by simp [inside]))
  have least : 0 ≤ step * (i : Int) := Int.mul_nonneg steps.le (Int.natCast_nonneg i)
  have less : step * (i : Int) < step * bars.length := Int.mul_lt_mul_of_pos_left (by omega) steps
  omega

theorem coarsen_merged (fits : ArchiveM.Stepped span step) (within : ArchiveM.Within span step t now)
    (times : Contiguous (now + step) step (rest.map candle)) (some : D ≠ []) (inside : ∀ b ∈ D, t ≤ b .time ∧ b .time < t + span) :
    ∃ candles, ArchiveM.coarsen span (.int t) (merged D) (rest.map candle) = .ok candles ∧
      Summed span t (D ++ rest) candles := by
  induction rest generalizing D t now with
  | nil =>
    refine ⟨_, rfl, ?_⟩
    rw [merged_candle]
    exact .cons fits.spans some inside nofun .nil
  | cons b rest ih =>
    obtain ⟨time, times'⟩ := Contiguous.cons_iff.mp times
    rw [map_cons, ArchiveM.coarsen]
    by_cases starts : b.candle.starts span
    · have next := within.next fits ((ArchiveM.starts_iff time).mp starts)
      rw [next] at time times times'
      obtain ⟨candles, sampled, summed⟩ := ih (D := [b]) (.start fits.spans ((ArchiveM.starts_iff time).mp starts))
        times' (by simp) (by simp [Value.int.inj time, fits.spans])
      rw [if_pos starts, time, merged_singleton, sampled, merged_candle]
      exact ⟨_, rfl, .cons fits.spans some inside (fun c mem => (time_of_contiguous fits.steps times mem).1) summed⟩
    · have stay := within.stay fits (mt (ArchiveM.starts_iff time).mpr starts)
      obtain ⟨candles, sampled, summed⟩ := ih (D := D ++ [b]) stay times' (by simp) (by
        intro c mem
        rcases mem_append.mp mem with old | new
        · exact inside c old
        · cases mem_singleton.mp new
          rw [Value.int.inj time]
          exact ⟨stay.start_le, stay.lt_stop⟩)
      rw [if_neg starts, merge_merged some]
      rw [append_assoc] at summed
      exact ⟨candles, sampled, summed⟩

end Bar

namespace ArchiveM

/-- Let fine candles of whole numbers follow each other in steps that divide the span of the coarse ones, none opening
    at zero, and let at least two of them start a span. Down-sampling them anew gives one candle for each span that has
    any, counted from the first that starts one, which sums them up. -/
theorem downsample_summaries {source target step first : Int} (positive : 0 < target) (steps : 0 < step)
    (divides : step ∣ target * 60) {bars : List Bar} (since : 0 < first)
    (times : Contiguous first step (bars.map Bar.candle)) (opens : ∀ b ∈ bars, b .open ≠ 0)
    (two : 2 ≤ bars.countP fun b => b .time % (target * 60) == 0) {a : Archive}
    (stored : a.find? (.int source) = some (.table (bars.map Bar.candle))) (fresh : a.find? (.int target) = none) :
    ∃ start candles, (bars.find? fun b => b .time % (target * 60) == 0).map (· .time) = some start ∧
      Bar.Summed (target * 60) start bars candles ∧
      outcome (downsample (.int source) (.int target)) a = (.ok ⟨⟩, a.put (.int target) (.table candles)) := by
  have fits : Stepped (target * 60) step := ⟨steps, divides, by omega⟩
  have apart : source ≠ target := by
    rintro rfl
    cases fresh.symm.trans stored
  have sampleable : Sampleable (target * 60) step (bars.map Bar.candle) := by
    refine ⟨⟨first, since, times⟩, fun c among _ => ?_, mergeable_of_numbers (p := fun v => ∃ n, v = .int n) ?_ ?_⟩
    · obtain ⟨b, given, rfl⟩ := mem_map.mp among
      exact bne_iff_ne.mpr (opens b given)
    · rintro _ _ ⟨m, rfl⟩ ⟨n, rfl⟩
      exact ⟨.int (m + n), rfl, m + n, rfl⟩
    · intro c among
      obtain ⟨b, _, rfl⟩ := mem_map.mp among
      exact ⟨rfl, rfl, _, rfl⟩
  obtain ⟨b, found⟩ : ∃ b, bars.find? (fun b => b .time % (target * 60) == 0) = some b := by
    obtain ⟨b, among, starts⟩ := countP_pos_iff.mp (Nat.zero_lt_of_lt two)
    exact Option.isSome_iff_exists.mp (List.find?_isSome.mpr ⟨b, among, starts⟩)
  obtain ⟨starts, pre, rest, rfl, none⟩ := List.find?_eq_some_iff_append.mp found
  have starts : b.candle.starts (target * 60) := starts
  have times' := times
  rw [map_append, List.map_cons, Contiguous.append_iff, Contiguous.cons_iff] at times'
  obtain ⟨before, time, after⟩ := times'
  rw [← Value.int.inj time] at after
  obtain ⟨candles, sampled, summed⟩ := Bar.coarsen_merged (D := [b]) fits
    (.start fits.spans ((starts_iff rfl).mp starts)) after (by simp) (by simpa using fits.spans)
  rw [← Bar.merged_singleton] at sampled
  have whole : coarse (target * 60) ((pre ++ b :: rest).map Bar.candle) = .ok candles := by
    rw [map_append, List.map_cons, ← List.nil_append candles]
    refine coarse_append starts (coarse_none fun c among => ?_) sampled
    obtain ⟨d, given, rfl⟩ := mem_map.mp among
    simpa [Candle.starts, Bar.candle] using none d given
  refine ⟨b .time, candles, by rw [found]; rfl, summed.prepend fits.spans fun d among => ?_,
    outcome_downsample_fresh apart fits sampleable ?_ whole stored fresh⟩
  · have less := (Bar.time_of_contiguous steps before among).2
    rw [Value.int.inj time]
    simpa using less
  · rw [countP_map]
    exact two

/-- Bars of five minutes, the first of them before a quarter of an hour starts. -/
def fives : List Bar :=
  let bar (time opening high low closing volume : Int) : Bar
    | .time => time
    | .open => opening
    | .high => high
    | .low => low
    | .close => closing
    | .volume => volume
  [bar 600 1 5 1 2 10, bar 900 3 9 2 4 20, bar 1200 4 6 1 5 30, bar 1500 5 8 3 7 10, bar 1800 7 7 2 2 5,
    bar 2100 2 4 1 3 1]

theorem downsample_summaries_fives :
    ∃ candles, Bar.Summed 900 900 fives candles ∧
      outcome (downsample (.int 5) (.int 15)) [(.int 5, .table (fives.map Bar.candle))] =
        (.ok ⟨⟩, Archive.put [(.int 5, .table (fives.map Bar.candle))] (.int 15) (.table candles)) := by
  have times : Contiguous 600 300 (fives.map Bar.candle) := by
    simp [fives, Contiguous.cons_iff, Contiguous.nil, Bar.candle]
  have stored : Archive.find? [(.int 5, .table (fives.map Bar.candle))] (.int 5) =
    some (.table (fives.map Bar.candle)) := rfl
  have fresh : Archive.find? [(.int 5, .table (fives.map Bar.candle))] (.int 15) = none := rfl
  obtain ⟨start, candles, first, summed, made⟩ := downsample_summaries (by decide) (by decide) (by decide) (by decide)
    times (by decide) (by decide) stored fresh
  cases first
  exact ⟨candles, summed, made⟩

end ArchiveM

end PineEngine
