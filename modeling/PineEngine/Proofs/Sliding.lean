import PineEngine.Proofs.Prefixes
import PineEngine.Proofs.Relaying
import PineEngine.Proofs.Serving

/-! # Sliding windows

A window on a relay slides by dropping its oldest candle, writing its last one anew and adding the next. A window that
is moved on by the two newest candles drops its oldest one and then writes over its last two, so that it also loses the
last candle but one: it becomes shorter by one with every step (`Market.outcome_updateOhlcv2`), while the series of the
machine that serves it keep their lengths.
-/

namespace PineEngine

open Script Computation Store List

theorem Value.setItem_beforeLast (items : List Value) (v w u : Value) :
    setItem (items ++ [v, w]) (-2) u = .ok (items ++ [u, w]) := by
  have place : Column.position? (items ++ [v, w]).length (-2) = some items.length := by
    rw [Column.position?, if_neg (by decide), if_pos (by simp)]
    simp
  rw [setItem, place]
  simp

/-- A window that dropped its oldest candle, has its last one written anew and got the next one. -/
def slid (w : List Candle) (last new : Candle) : List Candle :=
  w.tail.dropLast ++ [last, new]

/-- A window that dropped its oldest candle and has its last two written over. -/
def overwritten (w : List Candle) (last new : Candle) : List Candle :=
  w.tail.dropLast.dropLast ++ [last, new]

variable {w : List Candle} {text : String}

theorem length_slid (two : 2 ≤ w.length) (last new : Candle) : (slid w last new).length = w.length := by
  simp [slid]
  omega

theorem ends_of_two (two : 2 ≤ w.length) : ∃ x inner y, w = x :: (inner ++ [y]) := by
  match w, two with
  | x :: z :: rest, _ =>
    have some : z :: rest ≠ [] := nofun
    exact ⟨x, (z :: rest).dropLast, (z :: rest).getLast some, by rw [dropLast_concat_getLast]⟩

theorem ends_of_three (three : 3 ≤ w.length) : ∃ x inner y z, w = x :: (inner ++ [y, z]) := by
  obtain ⟨x, front, z, rfl⟩ := ends_of_two (show 2 ≤ w.length by omega)
  have some : front ≠ [] := by
    rintro rfl
    simp at three
  refine ⟨x, front.dropLast, front.getLast some, z, ?_⟩
  rw [append_cons front.dropLast, dropLast_concat_getLast]

theorem length_overwritten (three : 3 ≤ w.length) (last new : Candle) :
    (overwritten w last new).length + 1 = w.length := by
  simp [overwritten]
  omega

/-- Candles as they are sent, with their columns in some order. -/
def sent (order : List CandleField) (rows : List Candle) : Fields :=
  order.map fun f => (f.key, .list (rows.map (· f)))

namespace Market

variable {m : Market} {w : List Candle} {order : List CandleField} {last new : Candle}

theorem fieldOf_key (f : CandleField) : fieldOf f.key = .ok f := by
  cases f <;> rfl

def fillColumn (rows : List Candle) (f : CandleField) : MarketM PUnit := do
  modifyColumn f fun _ => .ok []
  modifyColumn f fun _ => .ok (rows.map (· f))

theorem setOhlcv_sent (order : List CandleField) (rows : List Candle) :
    setOhlcv (sent order rows) = order.forM (fillColumn rows) := by
  induction order with
  | nil => rfl
  | cons f order ih =>
    have first : (do
        let f' ← fieldOf f.key
        modifyColumn f' fun _ => .ok []
        let entries ← (Value.list (rows.map (· f))).elements
        modifyColumn f' fun _ => .ok entries : MarketM PUnit) = fillColumn rows f := by
      rw [fieldOf_key]
      rfl
    exact congrArg₂ (fun x y => x >>= fun _ => y) first ih

theorem outcome_setOhlcv (all : order.Perm CandleField.all) (rows : List Candle) (m : Market) :
    outcome (setOhlcv (sent order rows)) m = (.ok ⟨⟩, { m with candles := .table rows }) := by
  have nodup : order.Nodup := all.nodup_iff.mpr (by decide)
  have every (f : CandleField) : f ∈ order := all.mem_iff.mpr f.mem_all
  have turns (f : CandleField) (t : Track) : Turns f t (rows.map (· f)) (fillColumn rows f) :=
    .bind (modifyColumn_turns rfl) (modifyColumn_turns rfl)
  have filled : outcome (order.forM (fillColumn rows)) m =
      (.ok ⟨⟩, place.put m (.ofColumns fun f => if f ∈ order then rows.map (· f) else m.candles.column f)) := by
    refine Place.outcome_forM nodup (fun f _ m c same column => ?_) rfl fun _ _ => rfl
    cases same
    exact turns f _ m rfl
  simp only [every, if_true] at filled
  rw [setOhlcv_sent, filled]
  rfl

def moveColumn (last new : Candle) (f : CandleField) : MarketM PUnit := do
  modifyColumn f fun t => if t.isEmpty then .error .index else .ok (t.drop 1)
  modifyColumn f fun t => Value.setItem t (-2) (last f)
  modifyColumn f fun t => Value.setItem t (-1) (new f)

theorem updateOhlcv2_sent (order : List CandleField) (last new : Candle) :
    updateOhlcv2 (sent order [last, new]) = order.forM (moveColumn last new) := by
  induction order with
  | nil => rfl
  | cons f order ih =>
    have first : (do
        let f' ← fieldOf f.key
        modifyColumn f' fun t => if t.isEmpty then .error .index else .ok (t.drop 1)
        modifyColumn f' fun t => do Value.setItem t (-2) (← (Value.list [last f, new f]).item 0)
        modifyColumn f' fun t => do Value.setItem t (-1) (← (Value.list [last f, new f]).item 1) : MarketM PUnit) =
          moveColumn last new f := by
      rw [fieldOf_key]
      rfl
    exact congrArg₂ (fun x y => x >>= fun _ => y) first ih

theorem outcome_updateOhlcv2 (all : order.Perm CandleField.all) (three : 3 ≤ w.length) (window : m.candles = .table w) :
    outcome (updateOhlcv2 (sent order [last, new])) m =
      (.ok ⟨⟩, { m with candles := .table (overwritten w last new) }) := by
  obtain ⟨x, inner, y, z, rfl⟩ := ends_of_three three
  have shape : overwritten (x :: (inner ++ [y, z])) last new = inner ++ [last, new] := by
    simp [overwritten, dropLast_append_of_ne_nil]
  rw [shape, updateOhlcv2_sent]
  refine outcome_forM_turns all (fun f => ?_) window
  have popped : (if ((x :: (inner ++ [y, z])).map (· f)).isEmpty then .error .index
      else .ok (((x :: (inner ++ [y, z])).map (· f)).drop 1) : Except Fault Track) =
        .ok (inner.map (· f) ++ [y f, z f]) := by
    simp
  have kept : Value.setItem (inner.map (· f) ++ [last f, z f]) (-1) (new f) = .ok ((inner ++ [last, new]).map (· f)) := by
    simpa using Value.setItem_last (inner.map (· f) ++ [last f]) (z f) (new f)
  exact .bind (modifyColumn_turns popped)
    (.bind (modifyColumn_turns (Value.setItem_beforeLast ..)) (modifyColumn_turns kept))

theorem outcome_updateOhlcv2_pair (all : order.Perm CandleField.all) (two : w.length = 2)
    (window : m.candles = .table w) :
    (outcome (updateOhlcv2 (sent order [last, new])) m).1 = .error .index := by
  match w, two with
  | [x, y], _ =>
    rw [updateOhlcv2_sent]
    cases order with
    | nil => cases all.length_eq
    | cons f order =>
      have column : m.candles.column f = [x f, y f] := by
        rw [window, Candles.column_table]
        rfl
      have popped : outcome (modifyColumn f fun t => if t.isEmpty then .error .index else .ok (t.drop 1)) m =
          (.ok ⟨⟩, { m with candles := m.candles.setColumn f [y f] }) :=
        outcome_modifyColumn (by rw [column]; rfl)
      have single : (m.candles.setColumn f [y f]).column f = [y f] := by
        rw [Candles.column_setColumn, if_pos rfl]
      have fails : outcome (moveColumn last new f) m =
          (.error .index, { m with candles := m.candles.setColumn f [y f] }) := by
        rw [moveColumn, bind_ok popped, bind_error (outcome_modifyColumn_error ?_)]
        rw [single]
        rfl
      exact congrArg Prod.fst (bind_error fails)

end Market

namespace Relay

/-- The relay answers that after the candle `last` comes `new`. -/
def Answers (r : Relay) (v : Venue) (res clock : Value) (last new : Candle) : Prop :=
  (r.onArchive v.tickerId (ArchiveM.stepOhlcv res clock)).1 = .ok (some (last.toFields, new.toFields))

theorem outcome_step_slid {r : Relay} {v : Venue} {clock : Value} {m : Market} {last new : Candle}
    (two : 2 ≤ w.length) (window : m.candles = .table w) (answers : r.Answers v m.resolution clock last new)
    (newer : ∀ c, w.getLast? = some c → Value.holds .le (new .time) (c .time) = .ok false) :
    outcome (r.step v clock) m = (.ok (new .time), { m with candles := .table (slid w last new) }) := by
  obtain ⟨x, inner, y, rfl⟩ := ends_of_two two
  have own : Value.itemOf m.candles.time (-1) = .ok (y .time) := by
    rw [window, Candles.time_table, ← cons_append, map_append]
    exact Value.itemOf_last ..
  have last? : (x :: (inner ++ [y])).getLast? = some y := by
    rw [← cons_append, getLast?_concat]
  have shape : slid (x :: (inner ++ [y])) last new = inner ++ [last, new] := by
    simp [slid]
  rw [outcome_step_newer answers own (newer y last?), bind_ok (outcome_slide window), shape]
  rfl

end Relay

/-- A request to move on: what is held, and the two newest candles with their columns in some order. -/
structure StepRequest where
  holdings : Fields
  order : List CandleField
  last : Candle
  new : Candle

/-- A request that tells the position, which names no series, and has every column. -/
structure StepRequest.WellFormed (q : StepRequest) : Prop where
  position : ∃ size, q.holdings.get "position_size" = .ok size ∧ ∀ r, size ≠ .series r
  columns : q.order.Perm CandleField.all

namespace StepRequest

/-- A request that brings a price for the last candle and the next one. -/
def flat (t step price price' : Int) : StepRequest :=
  ⟨[("position_size", .int 0)], CandleField.all, flatCandle t price, flatCandle (t + step) price'⟩

theorem flat_wellFormed (t step price price' : Int) : (flat t step price price').WellFormed :=
  ⟨⟨.int 0, rfl, nofun⟩, .refl _⟩

end StepRequest

namespace Machine

variable {p : Program} {m m' : Machine} {w w' : List Candle}

def answer (q : StepRequest) : MachineM (List Action) :=
  serve q.holdings (sent q.order [q.last, q.new])

/-- The machine that requests leave behind, whether they succeed or fail. -/
def answered (m : Machine) (qs : List StepRequest) : Machine :=
  qs.foldl (fun m q => leaves (answer q) m) m

/-- A machine came to have another window; the series keep their lengths, and the times are the same series. -/
structure Moved (w : List Candle) (m m' : Machine) : Prop where
  market : m'.market = { m.market with candles := .table w }
  times : m'.timesNow = m.timesNow
  store : m.store.Spares (fun _ => False) m'.store

theorem Moved.trans {m'' : Machine} (first : Moved w m m') (second : Moved w' m' m'') : Moved w' m m'' where
  market := by rw [second.market, first.market]
  times := second.times.trans first.times
  store := first.store.trans second.store

def supplied (m : Machine) (b : Broker) (w : List Candle) : Machine :=
  { m with broker := some b, market := { m.market with candles := .table w } }

theorem answer_moves (compiled : compile text = .ok p) (fit : Fit p m) (connected : m.Connected) {q : StepRequest}
    (formed : q.WellFormed) (three : 3 ≤ w.length) (window : m.market.candles = .table w) :
    Moved (overwritten w q.last q.new) m (leaves (answer q) m) ∧ Fit p (leaves (answer q) m) ∧
      (leaves (answer q) m).Connected := by
  obtain ⟨size, h, plain⟩ := formed.position
  obtain ⟨b, told, tells⟩ := outcome_tell connected h
  obtain ⟨nodes, numbered⟩ := compile_fits compiled
  -- The market moves on before the script is evaluated, and nothing that the script does can change it.
  have moves := outcome_onMarket (Market.updateOhlcv2 (sent q.order [q.last, q.new])) { m with broker := some b }
  rw [Market.outcome_updateOhlcv2 formed.columns three window] at moves
  have done : leaves (answer q) m = leaves stepNew (m.supplied b (overwritten w q.last q.new)) := by
    rw [leaves, answer, serve, bind_ok tells, moveOn, bind_ok moves]
    rfl
  have between : Fit p (m.supplied b (overwritten w q.last q.new)) := by
    refine (fit.withBroker fun r here => ?_).withMarket _
    obtain ⟨d, book⟩ := told
    obtain ⟨d', book'⟩ := here
    cases book.symm.trans book'
    exact plain r rfl
  have follows := between.runs (compile_closed compiled) stepNew_runs
  obtain ⟨_, times⟩ := stepNew_times _ (between.program.symm ▸ numbered)
  rw [done]
  exact ⟨⟨follows.market, times, follows.store⟩, between.follows follows, size, (follows.told size).mpr ⟨b, rfl, told⟩⟩

theorem answered_moves (compiled : compile text = .ok p) (fit : Fit p m) (connected : m.Connected)
    {qs : List StepRequest} (formed : ∀ q ∈ qs, q.WellFormed) (enough : qs.length + 2 ≤ w.length)
    (window : m.market.candles = .table w) :
    Moved (qs.foldl (fun w q => overwritten w q.last q.new) w) m (m.answered qs) ∧
      (m.answered qs).market.size + qs.length = w.length := by
  induction qs generalizing m w with
  | nil =>
    refine ⟨⟨?_, rfl, .refl _⟩, ?_⟩
    · show m.market = { m.market with candles := .table w }
      rw [← window]
    · show m.market.candles.time.length + 0 = w.length
      rw [window, Candles.time_table]
      simp
  | cons q qs ih =>
    have three : 3 ≤ w.length := by
      simp only [length_cons] at enough
      omega
    have shorter := length_overwritten three q.last q.new
    obtain ⟨moved, fit', connected'⟩ := answer_moves compiled fit connected (formed q (.head _)) three window
    have rest := ih fit' connected' (fun q' mem => formed q' (.tail _ mem))
      (by simp only [length_cons] at enough; omega) (congrArg Market.candles moved.market)
    refine ⟨moved.trans rest.1, ?_⟩
    have size := rest.2
    simp only [answered, foldl_cons, length_cons] at size ⊢
    omega

theorem reset_eq_ok (h : outcome reset m = (.ok (), m')) : ∃ c, Column.ofValues m.market.candles.time = .ok c ∧
    ∃ valid, m' = { m with
      store := (m.store.alloc c valid (.source .time)).2
      context := some { timestamps := (m.store.alloc c valid (.source .time)).1 } } := by
  rw [reset, get_bind] at h
  cases made : Column.ofValues m.market.candles.time with
  | error e =>
    rw [sourceSeries, made] at h
    cases h
  | ok c =>
    rw [sourceSeries, made] at h
    cases h
    exact ⟨c, rfl, _, rfl⟩

theorem items?_of_isNumber {v : Value} (number : v.isNumber) : Column.items? v = none := by
  cases v <;> first | rfl | cases number

theorem boot_window (compiled : compile text = .ok p) (fit : Fit p m) {order : List CandleField}
    (all : order.Perm CandleField.all) (numbers : ∀ c ∈ w, (c .time).isNumber)
    (booted : outcome (boot (sent order w)) m = (.ok (), m')) :
    Fit p m' ∧ m'.market.candles = .table w ∧
      ∃ times, m'.timesNow = some times ∧ (m'.store.column times).length = w.length := by
  obtain ⟨nodes, numbered⟩ := compile_fits compiled
  obtain ⟨_, m₂, loaded, ran⟩ := outcome_bind_eq_ok booted
  obtain ⟨_, m₁, moved, started⟩ := outcome_bind_eq_ok loaded
  rw [outcome_onMarket, Market.outcome_setOhlcv all] at moved
  cases moved
  have fit₁ := fit.withMarket { m.market with candles := .table w }
  have fit₂ := fit₁.follows (fit₁.runs (compile_closed compiled) reset_keeps.runs)
  rw [leaves, started] at fit₂
  have follows := fit₂.runs (compile_closed compiled) run_runs
  obtain ⟨_, same⟩ := run_times m₂ (fit₂.program.symm ▸ numbered)
  rw [leaves, ran] at follows same
  obtain ⟨c, made, valid, rfl⟩ := reset_eq_ok started
  have opens := fit₂.sound.times _ rfl
  refine ⟨fit₂.follows follows, congrArg Market.candles follows.market, _, same, ?_⟩
  have single : ∀ v ∈ (Candles.table w).time, Column.items? v = none := by
    intro v mem
    obtain ⟨c, member, rfl⟩ := mem_map.mp mem
    exact items?_of_isNumber (numbers c member)
  have flat := (Column.ofValues_first (k := (Candles.table w).time.length) single (by rw [take_length]) made).1
  rw [follows.store.length opens, (congrArg Column.length (column_alloc ..)).trans flat.length, Candles.time_table,
    length_map]

end Machine

/-- What the same two newest candles make of a window: a client of a relay slides it, a machine that is served writes
    over its end, and cannot do so with two candles. -/
structure Parting (w : List Candle) : Prop where
  slides : ∀ (r : Relay) (v : Venue) (clock : Value) (m : Market) (last new : Candle), m.candles = .table w →
    r.Answers v m.resolution clock last new →
    (∀ c, w.getLast? = some c → Value.holds .le (new .time) (c .time) = .ok false) →
    outcome (r.step v clock) m = (.ok (new .time), { m with candles := .table (slid w last new) })
  overwrites : ∀ (order : List CandleField) (m : Market) (last new : Candle), order.Perm CandleField.all →
    m.candles = .table w → 3 ≤ w.length →
    outcome (Market.updateOhlcv2 (sent order [last, new])) m =
      (.ok ⟨⟩, { m with candles := .table (overwritten w last new) })
  fails : ∀ (order : List CandleField) (m : Market) (last new : Candle), order.Perm CandleField.all →
    m.candles = .table w → w.length = 2 →
    (outcome (Market.updateOhlcv2 (sent order [last, new])) m).1 = .error .index
  lengths : ∀ last new, (slid w last new).length = w.length ∧
    (3 ≤ w.length → (overwritten w last new).length + 1 = w.length)

namespace Machine

/-- A window that a client of a relay moves on keeps its length, but one that a served machine moves on by the same
    candles drops the last candle but one along with the oldest. So a machine that was booted on `n` candles has `n - k`
    after `k` requests, whatever the script does, while its times are still `n` and every series keeps its length. -/
theorem served_window_shrinks {w : List Candle} (two : 2 ≤ w.length) :
    Parting w ∧ ∀ {text : String} {p : Program} {m₀ m : Machine} {order : List CandleField} {qs : List StepRequest},
      compile text = .ok p → Session p m₀ → order.Perm CandleField.all → (∀ c ∈ w, (c .time).isNumber) →
      outcome (boot (sent order w)) m₀ = (.ok (), m) → (∀ q ∈ qs, q.WellFormed) → qs.length + 2 ≤ w.length →
      ∃ m' times, ({ m with broker := some .remote } : Machine).answered qs = m' ∧
        m'.market.candles = .table (qs.foldl (fun w q => overwritten w q.last q.new) w) ∧
        m'.market.size + qs.length = w.length ∧
        m'.timesNow = some times ∧ (m'.store.column times).length = w.length ∧
        ∀ r : SeriesRef, r.id < m.store.series.size → (m'.store.column r).length = (m.store.column r).length := by
  refine ⟨⟨fun r v clock m last new window answers newer => Relay.outcome_step_slid two window answers newer,
    fun order m last new all window three => Market.outcome_updateOhlcv2 all three window,
    fun order m last new all window pair => Market.outcome_updateOhlcv2_pair all pair window,
    fun last new => ⟨length_slid two last new, fun three => length_overwritten three last new⟩⟩, ?_⟩
  intro text p m₀ m order qs compiled session all numbers booted formed enough
  obtain ⟨fit, window, times, same, length⟩ :=
    boot_window compiled (session.fit (compile_closed compiled)) all numbers booted
  have told : ∀ r, ¬ Broker.remote.told (.series r) := by
    rintro r ⟨d, book⟩
    cases book
  obtain ⟨moved, size⟩ :=
    answered_moves compiled (fit.withBroker told) ⟨.int 0, .remote, rfl, none, rfl⟩ formed enough window
  have opens : m.store.Open (fun _ => False) times := by
    obtain ⟨c, running, rfl⟩ := Option.map_eq_some_iff.mp same
    exact fit.sound.times c running
  exact ⟨_, times, rfl, congrArg Market.candles moved.market, size, moved.times.trans same,
    (moved.store.length opens).trans length, fun r present => moved.store.length (fit.opens present)⟩

/-- The program of a text, and the machine that was booted on candles with it. -/
def booted (text : String) (w : List Candle) : Option (Program × Machine) :=
  match compile text with
  | .ok p =>
    match outcome (boot (sent CandleField.all w)) (leaves (prepare p .absent) (new .plain {})) with
    | (.ok _, m) => some (p, m)
    | (.error _, _) => none
  | .error _ => none

theorem booted_eq_some (h : booted text w = some (p, m)) : compile text = .ok p ∧
    ∃ m₀, Session p m₀ ∧ outcome (boot (sent CandleField.all w)) m₀ = (.ok (), m) := by
  unfold booted at h
  split at h
  next q compiled =>
    split at h
    next m' done =>
      cases h
      refine ⟨compiled, _, .prepare {} Builtin.Library.empty fun title r h => ?_, done⟩
      cases h
    next => cases h
  next => cases h

/-- After one request a machine that was booted on three candles has two, and three times. -/
theorem served_window_shrinks_close : ∃ p m m' times, compile "x = close\n" = .ok p ∧
    (∃ m₀, Session p m₀ ∧ outcome (boot (sent CandleField.all (flatCandles 60 60 [7, 8, 9]))) m₀ = (.ok (), m)) ∧
    ({ m with broker := some .remote } : Machine).answered [.flat 180 60 10 11] = m' ∧
      m'.market.candles = .table [flatCandle 180 10, flatCandle 240 11] ∧
      m'.timesNow = some times ∧ (m'.store.column times).length = 3 := by
  have some : (booted "x = close\n" (flatCandles 60 60 [7, 8, 9])).isSome := by
    decide +kernel
  obtain ⟨⟨p, m⟩, given⟩ := Option.isSome_iff_exists.mp some
  obtain ⟨compiled, m₀, session, started⟩ := booted_eq_some given
  have numbers : ∀ c ∈ flatCandles 60 60 [7, 8, 9], (c .time).isNumber := by
    intro c among
    simp only [flatCandles, mem_cons, not_mem_nil, or_false] at among
    rcases among with rfl | rfl | rfl <;> rfl
  have formed : ∀ q ∈ [StepRequest.flat 180 60 10 11], q.WellFormed := by
    intro q among
    cases mem_singleton.mp among
    exact StepRequest.flat_wellFormed ..
  obtain ⟨m', times, served, window, size, same, length, _⟩ :=
    (served_window_shrinks (w := flatCandles 60 60 [7, 8, 9]) (by decide)).2 compiled session (.refl _) numbers started
      formed (by decide)
  exact ⟨p, m, m', times, compiled, ⟨m₀, session, started⟩, served, window, same, length⟩

/-- Of the same three candles and the same two newest ones a client of a relay keeps three, and a served machine two. -/
theorem windows_of_three_part : ∃ (r : Relay) (m : Market), m.candles = .table (flatCandles 60 60 [7, 8, 9]) ∧
    r.Answers .bitmex m.resolution (.int 240) (flatCandle 180 10) (flatCandle 240 11) ∧
    (leaves (r.step .bitmex (.int 240)) m).size = 3 ∧
    (leaves (Market.updateOhlcv2 (sent CandleField.all [flatCandle 180 10, flatCandle 240 11])) m).size = 2 := by
  have answers : (Relay.keeping .bitmex 1 (flatCandles 60 60 [7, 8, 10, 11])).Answers .bitmex (.int 1) (.int 240)
      (flatCandle 180 10) (flatCandle 240 11) := by
    obtain ⟨a, known, found⟩ := Relay.keeping_serves .bitmex 1 (flatCandles 60 60 [7, 8, 10, 11])
    have times : Contiguous 60 60 (flatCandles 60 60 [7, 8] ++ [flatCandle 180 10, flatCandle 240 11]) :=
      flatCandles_contiguous 60 60 [7, 8, 10, 11]
    exact (Relay.onArchive_eq known (ArchiveM.outcome_stepOhlcv_some found times (by decide))).1
  have three : 3 ≤ (flatCandles 60 60 [7, 8, 9]).length := by decide
  refine ⟨_, { resolution := .int 1, candles := .table (flatCandles 60 60 [7, 8, 9]) }, rfl, answers, ?_, ?_⟩
  · rw [leaves, Relay.outcome_step_slid (by decide) rfl answers fun c last => ?_]
    · rfl
    · cases last
      rfl
  · rw [leaves, Market.outcome_updateOhlcv2 (.refl _) three rfl]
    rfl

end Machine

end PineEngine
