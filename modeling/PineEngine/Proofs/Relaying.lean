import PineEngine.Proofs.Tracks
import PineEngine.Venue.Relay

/-! # A window on a relay

The relay's last candle may still change, and more candles may follow it; what stands before it is final. A client's
window is a copy of consecutive candles of the relay, of which only the last may be out of date (`Synced`). Updates of
the relay and steps of the client keep it so in whatever order they come, as long as the window has two candles:
a step writes the candle before the last anew, and with a single candle there is none.
-/

namespace PineEngine

open Computation List Candles

def Candle.toFields (c : Candle) : Fields :=
  CandleField.all.map fun f => (f.key, c f)

theorem Candle.get_toFields (c : Candle) (f : CandleField) : c.toFields.get f.key = .ok (c f) := by
  cases f <;> rfl

theorem Candles.get_toFields (c : Candles) (f : CandleField) : c.toFields.get f.key = .ok (.list (c.column f)) := by
  cases f <;> rfl

theorem candleAt_table (pre : List Candle) (c : Candle) (rest : List Candle) :
    (table (pre ++ c :: rest)).candleAt pre.length = .ok c.toFields := by
  have item (f : CandleField) : Value.itemOf ((table (pre ++ c :: rest)).column f) pre.length = .ok (c f) :=
    Value.itemOf_of_getElem? (by simp)
  simp only [candleAt, CandleField.all, mapM_cons, mapM_nil, item]
  rfl

theorem Candles.setColumn_setColumn (c : Candles) (f : CandleField) (t t' : Track) :
    (c.setColumn f t).setColumn f t' = c.setColumn f t' := by
  cases f <;> rfl

variable {α : Type} {batch : Fields}

namespace Market

def place : Place Market where
  look m := some m.candles
  put m c := { m with candles := c }
  look_put _ _ := rfl
  put_put _ _ _ := rfl
  put_self := by
    rintro m c ⟨⟩
    rfl

theorem outcome_lift (e : Except Fault α) (m : Market) : outcome (liftM e : MarketM α) m = (e, m) := by
  cases e <;> rfl

variable {m : Market} {f : CandleField} {g g' : Track → Except Fault Track} {t t' : Track}

theorem outcome_modifyColumn (changed : g (m.candles.column f) = .ok t) :
    outcome (modifyColumn f g) m = (.ok ⟨⟩, { m with candles := m.candles.setColumn f t }) := by
  unfold modifyColumn
  rw [get_bind, changed, bind_ok (outcome_lift ..)]
  rfl

theorem outcome_modifyColumn_error {e : Fault} (fails : g (m.candles.column f) = .error e) :
    outcome (modifyColumn f g) m = (.error e, m) := by
  unfold modifyColumn
  rw [get_bind, fails, bind_error (outcome_lift ..)]

/-- A computation that makes one column of the window another and changes nothing else. -/
def Turns (f : CandleField) (t t' : Track) (x : MarketM PUnit) : Prop :=
  ∀ m : Market, m.candles.column f = t → outcome x m = (.ok ⟨⟩, { m with candles := m.candles.setColumn f t' })

theorem modifyColumn_turns (changed : g t = .ok t') : Turns f t t' (modifyColumn f g) :=
  fun _ column => outcome_modifyColumn (column ▸ changed)

theorem Turns.bind {t'' : Track} {x y : MarketM PUnit} (first : Turns f t t' x) (second : Turns f t' t'' y) :
    Turns f t t'' (x >>= fun _ => y) := by
  intro m column
  have between : (m.candles.setColumn f t').column f = t' := by
    rw [column_setColumn, if_pos rfl]
  rw [bind_ok (first m column), second _ between, setColumn_setColumn]

theorem Turns.bind_lift {e : Except Fault α} {v : α} {x : α → MarketM PUnit} (read : e = .ok v)
    (turns : Turns f t t' (x v)) : Turns f t t' (liftM e >>= x) := by
  intro m column
  rw [read, bind_ok (outcome_lift ..)]
  exact turns m column

theorem outcome_forM_turns {fs : List CandleField} (all : fs.Perm CandleField.all) {w w' : List Candle}
    {act : CandleField → MarketM PUnit} (turns : ∀ f, Turns f (w.map (· f)) (w'.map (· f)) (act f))
    (window : m.candles = .table w) : outcome (fs.forM act) m = (.ok ⟨⟩, { m with candles := .table w' }) := by
  have found : place.look m = some (.table w) := congrArg some window
  refine Place.outcome_forM_table all (fun f m c same column => ?_) found
  cases same
  exact turns f m column

end Market

namespace Relay

variable {r : Relay} {v : Venue} {res first : Int} {a : Archive} {rows : List Candle}

def Serves (r : Relay) (v : Venue) (res : Int) (rows : List Candle) : Prop :=
  ∃ a, r.archive v.tickerId = .ok a ∧ a.find? (.int res) = some (.table rows)

theorem archive_map (r : Relay) (id : String) (a' : Archive) (known : r.archive id = .ok a) :
    archive (r.map fun (k, b) => if k == id then (k, a') else (k, b)) id = .ok a' := by
  unfold archive at known ⊢
  induction r with
  | nil => cases known
  | cons entry r ih =>
    obtain ⟨k, b⟩ := entry
    rw [map_cons]
    by_cases same : k = id
    · subst same
      simp
    · have apart : (id == k) = false := by simpa using Ne.symm same
      rw [lookup_cons, apart] at known
      have apart' : (k == id) = false := by simpa using same
      simp only [apart', Bool.false_eq_true, if_false, lookup_cons, apart]
      exact ih known

theorem onArchive_eq {op : ArchiveM α} {e : Except Fault α} {a' : Archive} {id : String}
    (known : r.archive id = .ok a) (h : outcome op a = (e, a')) :
    (r.onArchive id op).1 = e ∧ (r.onArchive id op).2.archive id = .ok a' := by
  have h : op.run.run a = (e, a') := h
  simp only [onArchive, known, h, true_and]
  exact archive_map r id a' known

end Relay

namespace ArchiveM

variable {a : Archive} {res first step : Int} {rows pre rest : List Candle} {c d : Candle}

theorem outcome_ohlcv (found : a.Has res rows) {count : Nat} (pos : 0 < count) :
    outcome (ohlcv (.int res) (.int count)) a =
      (.ok (Candles.table (rows.drop (rows.length - count))).toFields, a) := by
  unfold ohlcv
  rw [bind_ok (outcome_candles found)]
  have columns : (ofColumns fun f => ((Candles.table rows).column f).latest count) =
      Candles.table (rows.drop (rows.length - count)) := by
    refine ext_columns fun f => ?_
    have some : 0 < (count : Int) := by omega
    rw [column_ofColumns, Track.latest, if_pos some]
    simp [map_drop]
  rw [← columns]
  rfl

theorem outcome_stepOhlcv_none (found : a.Has res rows) (times : Contiguous first step rows)
    (pos : 0 < step) {k : Nat} (beyond : rows.length ≤ k) :
    outcome (stepOhlcv (.int res) (.int (first + step * k))) a = (.ok none, a) := by
  have index := times.lastIndex_time pos k
  rw [if_neg (by omega)] at index
  unfold stepOhlcv
  rw [bind_ok (outcome_candles found), time_table, index, bind_ok (outcome_lift ..)]
  rfl

theorem outcome_stepOhlcv_some (found : a.Has res (pre ++ c :: d :: rest))
    (times : Contiguous first step (pre ++ c :: d :: rest)) (pos : 0 < step) :
    outcome (stepOhlcv (.int res) (.int (first + step * (pre.length + 1 : Nat)))) a =
      (.ok (some (c.toFields, d.toFields)), a) := by
  have next : (Candles.table (pre ++ c :: d :: rest)).candleAt (pre.length + 1 : Nat) = .ok d.toFields := by
    rw [append_cons, show pre.length + 1 = (pre ++ [c]).length by simp]
    exact candleAt_table ..
  have place : ((pre.length + 1 : Nat) : Int) - 1 = pre.length := by omega
  have index := times.lastIndex_time pos (pre.length + 1)
  rw [if_pos (by simp)] at index
  unfold stepOhlcv
  rw [bind_ok (outcome_candles found), time_table, index, bind_ok (outcome_lift ..),
    if_neg (by omega), place, candleAt_table, bind_ok (outcome_lift ..), next,
    bind_ok (outcome_lift ..)]
  rfl

/-- A table of exchanged data that holds the columns of candles. -/
def Carries (batch : Fields) (rows : List Candle) : Prop :=
  ∀ f : CandleField, batch.get f.key = .ok (.list (rows.map (· f)))

theorem toFields_carries (rows : List Candle) : Carries (Candles.table rows).toFields rows := by
  intro f
  rw [get_toFields, column_table]

def copyEntry (res : Value) (batch : Fields) (start : Int) (i : Nat) (f : CandleField) : ArchiveM PUnit := do
  let v ← (← batch.get f.key).item i
  setEntry res f (start + i) v

theorem outcome_copy {old done after : List Candle} (carries : Carries batch (done ++ rows))
    (found : a.Has res (old ++ done ++ after)) :
    outcome ((range' done.length rows.length).forM fun i =>
      CandleField.all.forM (copyEntry (.int res) batch old.length i)) a =
        (.ok ⟨⟩, a.put (.int res) (.table (old ++ done ++ rows ++ after.drop rows.length))) := by
  induction rows generalizing done after a with
  | nil =>
    rw [append_nil, length_nil, drop_zero, Archive.put_self found]
    rfl
  | cons c rows ih =>
    have item (f : CandleField) : (Value.list ((done ++ c :: rows).map (· f))).item done.length = .ok (c f) :=
      Value.itemOf_of_getElem? (by simp)
    have acts (f : CandleField) (a : Archive) : outcome (copyEntry (.int res) batch old.length done.length f) a =
        outcome (setEntry (.int res) f (old ++ done).length (c f)) a := by
      rw [copyEntry, carries, bind_ok (outcome_lift ..), item, bind_ok (outcome_lift ..),
        length_append]
      rfl
    have written := outcome_writeRow (.refl _) acts found
    have carries' : Carries batch (done ++ [c] ++ rows) := by simpa using carries
    have found' : (a.put (.int res) (.table (old ++ done ++ c :: after.drop 1))).find? (.int res) =
        some (.table (old ++ (done ++ [c]) ++ after.drop 1)) := by
      simpa using Archive.find?_put_self a res (.table (old ++ done ++ c :: after.drop 1))
    have rest := ih carries' found'
    have length : (done ++ [c]).length = done.length + 1 := by simp
    have whole : old ++ (done ++ [c]) ++ rows ++ (after.drop 1).drop rows.length =
        old ++ done ++ c :: rows ++ after.drop (c :: rows).length := by
      simp
    rw [Archive.put_put, length, whole] at rest
    exact (bind_ok written).trans rest

theorem outcome_update (found : a.Has res (pre ++ [c]))
    (times : Contiguous first step (pre ++ [c])) (pos : 0 < step) (carries : Carries batch (d :: rest))
    (same : d .time = c .time) :
    outcome (update (.int res) batch) a = (.ok ⟨⟩, a.put (.int res) (.table (pre ++ d :: rest))) := by
  have known : outcome (candlesOrNew (.int res)) a = (.ok (.table (pre ++ [c])), a) := by
    have key : (Value.int res).isKey := rfl
    simp [candlesOrNew, key, outcome_bind, found]
  have time : c .time = .int (first + step * pre.length) :=
    (Contiguous.cons_iff.mp (Contiguous.append_iff.mp times).2).1
  have head : Value.itemOf ((d :: rest).map (· .time)) (0 : Nat) = .ok (c .time) :=
    Value.itemOf_of_getElem? (by simp [same])
  have index := times.lastIndex_time pos pre.length
  rw [if_pos (by simp)] at index
  have carries' : Carries batch ([] ++ d :: rest) := carries
  have found' : a.Has res (pre ++ [] ++ [c]) := by simpa using found
  have copied := outcome_copy carries' found'
  have read : batch.get "t" = .ok (.list ((d :: rest).map (· .time))) := carries .time
  have items : (Value.list ((d :: rest).map (· .time))).items = .ok ((d :: rest).map (· .time)) := rfl
  unfold update
  rw [bind_ok known, read, bind_ok (outcome_lift ..), items, bind_ok (outcome_lift ..),
    show Value.itemOf _ 0 = _ from head, bind_ok (outcome_lift ..), time_table, time, index,
    bind_ok (outcome_lift ..), length_map, range_eq_range', if_neg (by omega)]
  have replaced : [c].drop (d :: rest).length = [] := drop_eq_nil_of_le (by simp)
  rw [append_nil, replaced, append_nil] at copied
  exact copied

end ArchiveM

namespace Relay

open ArchiveM

variable {r : Relay} {v : Venue} {res first gap t : Int} {rows w inner : List Candle} {m : Market} {x y z u : Candle}

/-- The candles that a venue sends after those that are kept: they begin with the last one, once more. -/
structure Continues (gap : Int) (rows new : List Candle) : Prop where
  times : ∃ t, Contiguous t gap new
  again : ∃ c d, rows.getLast? = some c ∧ new.head? = some d ∧ d .time = c .time

variable {new : List Candle} {last : Candle} {length : Nat}

theorem serves_update (serves : Serves r v res rows) (times : Contiguous first gap rows) (pos : 0 < gap)
    (carries : Carries batch new) (continues : Continues gap rows new) :
    (r.update v.tickerId (.int res) batch).1 = .ok ⟨⟩ ∧
      Serves (r.update v.tickerId (.int res) batch).2 v res (rows.dropLast ++ new) ∧
      Contiguous first gap (rows.dropLast ++ new) := by
  obtain ⟨a, known, found⟩ := serves
  obtain ⟨c, d, last, head, same⟩ := continues.again
  obtain ⟨t, newTimes⟩ := continues.times
  obtain ⟨pre, rfl⟩ := getLast?_eq_some_iff.mp last
  obtain ⟨rest, rfl⟩ := head?_eq_some_iff.mp head
  obtain ⟨done, kept⟩ := onArchive_eq known (outcome_update found times pos carries same)
  rw [dropLast_concat]
  refine ⟨done, ⟨_, kept, Archive.find?_put_self ..⟩, ?_⟩
  obtain ⟨before, lastTime⟩ := Contiguous.append_iff.mp times
  have time := (Contiguous.cons_iff.mp lastTime).1
  have start : t = first + gap * pre.length :=
    Value.int.inj ((Contiguous.cons_iff.mp newTimes).1.symm.trans (same.trans time))
  exact Contiguous.append_iff.mpr ⟨before, start ▸ newTimes⟩

/-- A window over consecutive candles that are kept, of which only the last may be out of date. -/
def Synced (rows w : List Candle) : Prop :=
  ∃ lead inner y z tail, rows = lead ++ (inner ++ z :: tail) ∧ w = inner ++ [y] ∧ y .time = z .time

theorem Synced.update (synced : Synced rows w) (continues : Continues gap rows new) :
    Synced (rows.dropLast ++ new) w := by
  obtain ⟨lead, inner, y, z, tail, rfl, rfl, time⟩ := synced
  obtain ⟨c, d, last, head, same⟩ := continues.again
  obtain ⟨rest, rfl⟩ := head?_eq_some_iff.mp head
  cases tail using reverseRecOn with
  | nil =>
    -- The window ends with the last candle that was kept, and that one came again.
    have own : z = c := by simpa using last
    refine ⟨lead, inner, y, d, rest, ?_, rfl, time.trans (own ▸ same.symm)⟩
    simp [← append_assoc]
  | append_singleton tail c' =>
    refine ⟨lead, inner, y, z, tail ++ d :: rest, ?_, rfl, time⟩
    rw [show lead ++ (inner ++ z :: (tail ++ [c'])) = (lead ++ (inner ++ z :: tail)) ++ [c'] by simp,
      dropLast_concat]
    simp

/-- Drops the oldest candle of a window, writes the last one anew and adds the next one. -/
def slide (last new : Candle) : MarketM PUnit :=
  CandleField.all.forM fun f => do
    let a ← last.toFields.get f.key
    let b ← new.toFields.get f.key
    Market.modifyColumn f fun t => if t.isEmpty then .error .index else .ok (t.drop 1)
    Market.modifyColumn f fun t => Value.setItem t (-1) a
    Market.modifyColumn f fun t => .ok (t ++ [b])

theorem outcome_slide {new : Candle} (window : m.candles = .table (x :: inner ++ [y])) :
    outcome (slide last new) m = (.ok ⟨⟩, { m with candles := .table (inner ++ [last, new]) }) := by
  refine Market.outcome_forM_turns (.refl _) (fun f => ?_) window
  refine .bind_lift (last.get_toFields f) (.bind_lift (new.get_toFields f) ?_)
  have popped : (if ((x :: inner ++ [y]).map (· f)).isEmpty then .error .index
      else .ok (((x :: inner ++ [y]).map (· f)).drop 1) : Except Fault Track) = .ok (inner.map (· f) ++ [y f]) := by
    simp
  have shown : (inner ++ [last, new]).map (· f) = inner.map (· f) ++ [last f] ++ [new f] := by simp
  rw [shown]
  exact .bind (Market.modifyColumn_turns popped)
    (.bind (Market.modifyColumn_turns (Value.setItem_last ..)) (Market.modifyColumn_turns rfl))

theorem outcome_slide_alone {new : Candle} (window : m.candles = .table [y]) :
    outcome (slide last new) m = (.error .index, { m with candles := (Candles.table [y]).setColumn .time [] }) := by
  cases m
  cases window
  rfl

theorem contiguous_window (times : Contiguous first gap rows) (synced : Synced rows w) :
    ∃ t, Contiguous t gap w := by
  obtain ⟨lead, inner, y, z, tail, rfl, rfl, time⟩ := synced
  obtain ⟨inside, rest⟩ := Contiguous.append_iff.mp (Contiguous.append_iff.mp times).2
  have last := (Contiguous.cons_iff.mp rest).1
  exact ⟨_, Contiguous.append_iff.mpr ⟨inside, Contiguous.cons_iff.mpr ⟨time.trans last, .nil⟩⟩⟩

theorem outcome_step_newer {clock t : Value} {new : Candle}
    (answer : (r.onArchive v.tickerId (stepOhlcv m.resolution clock)).1 = .ok (some (last.toFields, new.toFields)))
    (own : Value.itemOf m.candles.time (-1) = .ok t) (newer : Value.holds .le (new .time) t = .ok false) :
    outcome (r.step v clock) m = outcome (do slide last new; pure (new .time)) m := by
  have read : new.toFields.get "t" = .ok (new .time) := new.get_toFields .time
  unfold step
  rw [get_bind, answer, bind_ok (Market.outcome_lift ..)]
  dsimp only
  rw [read, bind_ok (Market.outcome_lift ..), own, bind_ok (Market.outcome_lift ..), newer,
    bind_ok (Market.outcome_lift ..)]
  rfl

theorem outcome_step (serves : Serves r v res rows) (times : Contiguous first gap rows) (pos : 0 < gap)
    (resolution : m.resolution = .int res) (window : m.candles = .table (inner ++ [y])) {lead tail : List Candle}
    (whole : rows = lead ++ (inner ++ z :: tail)) (same : y .time = z .time) (time : y .time = .int t) :
    outcome (r.step v (.int (t + gap))) m = match tail with
      | [] => (.ok .absent, m)
      | u :: _ => outcome (do slide z u; pure (.int (t + gap))) m := by
  obtain ⟨a, known, found⟩ := serves
  have place : t = first + gap * (lead ++ inner).length := by
    rw [whole, ← append_assoc] at times
    exact Value.int.inj (time.symm.trans (same.trans (Contiguous.cons_iff.mp (Contiguous.append_iff.mp times).2).1))
  have clock : t + gap = first + gap * ((lead ++ inner).length + 1 : Nat) := by
    rw [place]
    push_cast
    ring
  cases tail with
  | nil =>
    have beyond : rows.length ≤ (lead ++ inner).length + 1 := by
      rw [whole]
      simp
      omega
    unfold step
    rw [get_bind, resolution, clock,
      (onArchive_eq known (outcome_stepOhlcv_none found times pos beyond)).1,
      bind_ok (Market.outcome_lift ..)]
    rfl
  | cons u tail =>
    rw [← append_assoc] at whole
    subst whole
    have timeU : u .time = .int (t + gap) := ((times.next_iff pos (same.symm.trans time)).mpr rfl).2
    have own : Value.itemOf m.candles.time (-1) = .ok (.int t) := by
      rw [window, time_table, map_append, ← time]
      exact Value.itemOf_last ..
    have newer : Value.holds .le (u .time) (.int t) = .ok false := by
      rw [timeU, Value.holds_ints]
      simpa using pos
    have answer := (onArchive_eq known (outcome_stepOhlcv_some found times pos)).1
    rw [← clock, ← resolution] at answer
    rw [outcome_step_newer answer own newer, timeU]

/-- What a client opens, and what the relay and the client come to by updates and steps in any order. An update brings
    candles that continue those that are kept; a step asks for the time after the last of the window. -/
inductive Interleaved (v : Venue) (res : Int) (r₀ : Relay) (m₀ : Market) : Relay → Market → Prop where
  | opened : Interleaved v res r₀ m₀ r₀ m₀
  | update {r : Relay} {m : Market} {rows new : List Candle} {batch : Fields} (before : Interleaved v res r₀ m₀ r m)
      (serves : Serves r v res rows) (carries : Carries batch new) (continues : Continues (res * 60) rows new) :
      Interleaved v res r₀ m₀ (r.update v.tickerId (.int res) batch).2 m
  | step {r : Relay} {m : Market} {t : Int} (before : Interleaved v res r₀ m₀ r m)
      (last : m.candles.time.getLast? = some (.int t)) :
      Interleaved v res r₀ m₀ r (leaves (r.step v (.int (t + res * 60))) m)

structure Windowed (v : Venue) (res : Int) (length : Nat) (r : Relay) (m : Market) (rows w : List Candle) : Prop where
  serves : Serves r v res rows
  times : ∃ first, Contiguous first (res * 60) rows
  resolution : m.resolution = .int res
  window : m.candles = .table w
  synced : Synced rows w
  length : w.length = length

theorem Serves.unique {rows' : List Candle} (serves : Serves r v res rows) (serves' : Serves r v res rows') :
    rows = rows' := by
  obtain ⟨a, known, found⟩ := serves
  obtain ⟨a', known', found'⟩ := serves'
  cases known.symm.trans known'
  exact table_inj (Option.some.inj (found.symm.trans found'))

theorem Windowed.update (windowed : Windowed v res length r m rows w) (pos : 0 < res)
    (carries : Carries batch new) (continues : Continues (res * 60) rows new) :
    (r.update v.tickerId (.int res) batch).1 = .ok ⟨⟩ ∧
      Windowed v res length (r.update v.tickerId (.int res) batch).2 m (rows.dropLast ++ new) w := by
  obtain ⟨first, times⟩ := windowed.times
  obtain ⟨done, serves, times⟩ := serves_update windowed.serves times (by omega) carries continues
  exact ⟨done, serves, ⟨first, times⟩, windowed.resolution, windowed.window, windowed.synced.update continues,
    windowed.length⟩

theorem Windowed.step (windowed : Windowed v res length r m rows w) (pos : 0 < res) (two : 2 ≤ length)
    (last : w.getLast?.map (· .time) = some (.int t)) :
    (outcome (r.step v (.int (t + res * 60))) m = (.ok .absent, m) ∧ ∀ c ∈ rows, c .time ≠ .int (t + res * 60)) ∨
    ∃ w' c, outcome (r.step v (.int (t + res * 60))) m = (.ok (.int (t + res * 60)), { m with candles := .table w' }) ∧
      Synced rows w' ∧ w'.length = length ∧ w'.getLast? = some c ∧ c ∈ rows ∧ c .time = .int (t + res * 60) := by
  obtain ⟨first, times⟩ := windowed.times
  obtain ⟨lead, inner, y, z, tail, whole, window, same⟩ := windowed.synced
  have time : y .time = .int t := by simpa [window] using last
  have long := windowed.length
  rw [window, length_append, length_singleton] at long
  obtain ⟨x, inner, rfl⟩ := exists_cons_of_length_pos (show 0 < inner.length by omega)
  have gap : 0 < res * 60 := by omega
  have done := outcome_step windowed.serves times gap windowed.resolution (window ▸ windowed.window) whole same time
  rw [whole, ← append_assoc] at times
  have next (c : Candle) := times.next_iff (c := c) gap (same.symm.trans time)
  rw [append_assoc, ← whole] at next
  cases tail with
  | nil => exact .inl ⟨done, fun c member late => nomatch (next c).mp ⟨member, late⟩⟩
  | cons u tail =>
    obtain ⟨member, late⟩ := (next u).mpr rfl
    have done := done.trans (bind_ok (outcome_slide (window ▸ windowed.window)))
    refine .inr ⟨inner ++ [z, u], u, done, ?_, by simpa using long, by simp, member, late⟩
    exact ⟨lead ++ [x], inner ++ [z], u, u, tail, by simp [whole], by simp, rfl⟩

theorem synced_drop {k : Nat} (inside : k < rows.length) : Synced rows (rows.drop k) := by
  have some : rows.drop k ≠ [] := by simpa using inside
  refine ⟨rows.take k, (rows.drop k).dropLast, (rows.drop k).getLast some, _, [], ?_, ?_, rfl⟩
  · rw [dropLast_concat_getLast, take_append_drop]
  · rw [dropLast_concat_getLast]

theorem length_latest (rows : List Candle) (n : Nat) : (rows.drop (rows.length - n)).length = min n rows.length := by
  rw [length_drop]
  omega

theorem openMarket_windowed {args : List Value} {symbol : Value}
    (arguments : v.arguments 3 args = .ok (symbol, .int res)) (serves : Serves r v res rows)
    (times : Contiguous first gap rows) (same : gap = res * 60) (some : 0 < rows.length) :
    ∃ m, r.openMarket v args = .ok m ∧ Windowed v res (min Venue.windowLength rows.length) r m rows
      (rows.drop (rows.length - Venue.windowLength)) := by
  obtain ⟨a, known, found⟩ := serves
  have pos : 0 < Venue.windowLength := by decide
  have sent := outcome_ohlcv found pos
  have synced : Synced rows (rows.drop (rows.length - Venue.windowLength)) := synced_drop (by omega)
  have length := length_latest rows Venue.windowLength
  generalize rows.drop (rows.length - Venue.windowLength) = w at sent synced length ⊢
  have column (f : CandleField) : (do (← (Candles.table w).toFields.get f.key).items : Except Fault Track) =
      .ok ((Candles.table w).column f) := by
    rw [get_toFields]
    rfl
  refine ⟨{ v.market symbol (.int res) with candles := .table w }, ?_,
    ⟨a, known, found⟩, ⟨first, same ▸ times⟩, rfl, rfl, synced, length⟩
  unfold openMarket
  rw [arguments, ok_bind]
  dsimp only
  rw [(onArchive_eq known sent).1, ok_bind]
  rfl

theorem Interleaved.windowed {r₀ : Relay} {m₀ : Market} (pos : 0 < res) (two : 2 ≤ length)
    {rows₀ w₀ : List Candle} (start : Windowed v res length r₀ m₀ rows₀ w₀) (reached : Interleaved v res r₀ m₀ r m) :
    ∃ rows w, Windowed v res length r m rows w := by
  induction reached with
  | opened => exact ⟨rows₀, w₀, start⟩
  | update before serves carries continues ih =>
    obtain ⟨rows, w, windowed⟩ := ih
    cases windowed.serves.unique serves
    exact ⟨_, w, (windowed.update pos carries continues).2⟩
  | @step r m t before last ih =>
    obtain ⟨rows, w, windowed⟩ := ih
    have last : w.getLast?.map (· .time) = some (.int t) := by
      simpa [windowed.window, time_table] using last
    obtain ⟨done, _⟩ | ⟨w', c, done, synced, same, _⟩ := windowed.step pos two last
    · exact ⟨rows, w, by rwa [leaves, done]⟩
    · refine ⟨rows, w', ?_⟩
      rw [leaves, done]
      exact ⟨windowed.serves, windowed.times, windowed.resolution, rfl, synced, same⟩

/-- A client that opens a window on two candles or more keeps a window of that length on the relay's candles, however
    updates of the relay and steps of the client are interleaved: the times are contiguous, every candle but the last
    is the relay's candle of its time, and the next step finds nothing and leaves the window exactly if the relay has
    no candle of that time. Neither an update nor a step fails. -/
theorem window_follows {args : List Value} {symbol : Value} (positive : 0 < res)
    (arguments : v.arguments 3 args = .ok (symbol, .int res)) (serves : Serves r v res rows)
    (times : Contiguous first (res * 60) rows) (two : 2 ≤ rows.length) :
    ∃ m, r.openMarket v args = .ok m ∧ ∀ r' m', Interleaved v res r m r' m' →
      ∃ rows' w t, Serves r' v res rows' ∧ m'.candles = .table w ∧ w.length = min Venue.windowLength rows.length ∧
        (∃ first, Contiguous first (res * 60) w) ∧ (∀ c ∈ w.dropLast, ∀ d, d ∈ rows' ∧ d .time = c .time ↔ d = c) ∧
        (∀ batch new, Carries batch new → Continues (res * 60) rows' new →
          (r'.update v.tickerId (.int res) batch).1 = .ok ⟨⟩) ∧
        w.getLast?.map (· .time) = some (.int t) ∧
        (∃ value, (outcome (r'.step v (.int (t + res * 60))) m').1 = .ok value) ∧
        ((outcome (r'.step v (.int (t + res * 60))) m').1 = .ok .absent ↔
          ∀ c ∈ rows', c .time ≠ .int (t + res * 60)) ∧
        ((outcome (r'.step v (.int (t + res * 60))) m').2 = m' ↔ ∀ c ∈ rows', c .time ≠ .int (t + res * 60)) := by
  have gap : 0 < res * 60 := by omega
  have most : 2 ≤ Venue.windowLength := by decide
  have two : 2 ≤ min Venue.windowLength rows.length := le_min most two
  obtain ⟨m, opened, start⟩ := openMarket_windowed arguments serves times rfl (by omega)
  refine ⟨m, opened, fun r' m' reached => ?_⟩
  obtain ⟨rows', w, windowed⟩ := reached.windowed positive two start
  obtain ⟨first', times'⟩ := windowed.times
  obtain ⟨firstW, timesW⟩ := contiguous_window times' windowed.synced
  have nonempty : w ≠ [] := ne_nil_of_length_pos (by rw [windowed.length]; omega)
  obtain ⟨k, time⟩ : ∃ k : Nat, (w.getLast nonempty) .time = .int (firstW + res * 60 * k) :=
    ⟨w.length - 1, timesW _ _ (by rw [← List.getLast?_eq_getElem?, List.getLast?_eq_some_getLast])⟩
  have last : w.getLast?.map (· .time) = some (.int (firstW + res * 60 * k)) := by
    rw [List.getLast?_eq_some_getLast nonempty, Option.map_some, time]
  have settled : ∀ c ∈ w.dropLast, c ∈ rows' := by
    obtain ⟨lead, inner, y, z, tail, rfl, rfl, _⟩ := windowed.synced
    intro c member
    rw [List.dropLast_concat] at member
    exact mem_append_right _ (mem_append_left _ member)
  refine ⟨rows', w, _, windowed.serves, windowed.window, windowed.length, ⟨firstW, timesW⟩, fun c member d => ⟨?_, ?_⟩,
    fun batch new carries continues => (windowed.update positive carries continues).1, last, ?_⟩
  · exact fun ⟨kept, same⟩ => times'.eq_of_time gap kept (settled c member) same
  · rintro rfl
    exact ⟨settled d member, rfl⟩
  · obtain ⟨done, none⟩ | ⟨w', c, done, _, _, newest, kept, late⟩ := windowed.step positive two last
    · rw [done]
      exact ⟨⟨_, rfl⟩, iff_of_true rfl none, iff_of_true rfl none⟩
    · rw [done]
      have some : ¬ ∀ c ∈ rows', c .time ≠ .int (firstW + res * 60 * k + res * 60) := fun none => none c kept late
      refine ⟨⟨_, rfl⟩, iff_of_false nofun some, iff_of_false (fun same => ?_) some⟩
      have windows := congrArg Market.candles same
      cases Candles.table_inj (windows.trans windowed.window)
      rw [newest, Option.map_some, late] at last
      have same := Value.int.inj (Option.some.inj last)
      omega

def keeping (v : Venue) (res : Int) (rows : List Candle) : Relay :=
  [(v.tickerId, [(.int res, .table rows)])]

theorem keeping_serves (v : Venue) (res : Int) (rows : List Candle) : Serves (keeping v res rows) v res rows := by
  refine ⟨[(.int res, .table rows)], by simp [keeping, archive], ?_⟩
  exact Archive.find?_put_self [] res (.table rows)

/-- A client that opens three candles keeps a window of three. -/
theorem window_follows_three : ∃ m, (keeping .bitmex 60 (flatCandles 3600 3600 [7, 8, 9])).openMarket .bitmex [] = .ok m ∧
    ∀ r' m', Interleaved .bitmex 60 (keeping .bitmex 60 (flatCandles 3600 3600 [7, 8, 9])) m r' m' →
      ∃ rows' w, Serves r' .bitmex 60 rows' ∧ m'.candles = .table w ∧ w.length = 3 ∧
        ∀ c ∈ w.dropLast, ∀ d, d ∈ rows' ∧ d .time = c .time ↔ d = c := by
  have arguments : Venue.bitmex.arguments 3 [] = .ok (.text "XBTUSD", .int 60) := rfl
  obtain ⟨m, opened, follows⟩ := window_follows (by decide) arguments
    (keeping_serves .bitmex 60 (flatCandles 3600 3600 [7, 8, 9])) (flatCandles_contiguous 3600 3600 _) (by decide)
  refine ⟨m, opened, fun r' m' reached => ?_⟩
  obtain ⟨rows', w, t, serves, window, length, _, settled, _⟩ := follows r' m' reached
  exact ⟨rows', w, serves, window, length, settled⟩

/-- A client that opens a single candle cannot go on: the first step that finds a candle fails, and leaves columns of
    different lengths. -/
theorem window_of_one_breaks : ∃ m m',
    (keeping .bitmex 60 (flatCandles 3600 3600 [7])).openMarket .bitmex [] = .ok m ∧
      outcome (((keeping .bitmex 60 (flatCandles 3600 3600 [7])).update Venue.bitmex.tickerId (.int 60)
        (Candles.table (flatCandles 3600 3600 [7, 8])).toFields).2.step .bitmex (.int 7200)) m = (.error .index, m') ∧
      m'.candles.time.length = 0 ∧ m'.candles.opening.length = 1 := by
  have serves := keeping_serves .bitmex 60 (flatCandles 3600 3600 [7])
  have times := flatCandles_contiguous 3600 3600 [7]
  have arguments : Venue.bitmex.arguments 3 [] = .ok (.text "XBTUSD", .int 60) := rfl
  obtain ⟨m, opened, windowed⟩ := openMarket_windowed arguments serves times rfl (by decide)
  have continues : Continues 3600 (flatCandles 3600 3600 [7]) (flatCandles 3600 3600 [7, 8]) :=
    ⟨⟨3600, flatCandles_contiguous 3600 3600 [7, 8]⟩, _, _, rfl, rfl, rfl⟩
  obtain ⟨_, serves, times⟩ := serves_update serves times (by decide) (toFields_carries _) continues
  have window : m.candles = .table ([] ++ [flatCandle 3600 7]) := windowed.window
  have whole : (flatCandles 3600 3600 [7]).dropLast ++ flatCandles 3600 3600 [7, 8] =
      [] ++ ([] ++ flatCandle 3600 7 :: [flatCandle 7200 8]) := rfl
  have done := outcome_step serves times (by decide) windowed.resolution window whole rfl rfl
  exact ⟨m, _, opened, done.trans (bind_error (outcome_slide_alone window)), rfl, rfl⟩

end Relay

end PineEngine
