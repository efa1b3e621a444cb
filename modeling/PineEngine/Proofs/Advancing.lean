import Mathlib.Data.List.TakeDrop
import PineEngine.Proofs.Resting
import PineEngine.Proofs.Shifting
import PineEngine.Proofs.Sliding

/-! # Moving series on

An append moves the valid index of a series on first (`SeriesRef.valid_appended`).

A machine that is served with a new candle makes room for it register by register. A series that is a price takes the
newest price at its end, and no evaluation writes to it afterwards. So one candle moves such a series on by as many
places as there are registers that hold it, counting the times of the bars as one more (`Machine.stepNew_shifts`).
-/

namespace PineEngine

open Script Builtin Computation Store List

variable {v : Value}

namespace Column

variable {k : Kind} {vs : List Value} {c : Column}

theorem Holds.set_last {u : Value} (holds : c.Holds k (vs ++ [u])) {w : Value} (stored : Cells.cellOf k v = .ok w) :
    ∃ c', c.set (-1) v = .ok c' ∧ c'.Holds k (vs ++ [w]) := by
  have place : position? (vs ++ [u]).length (-1) = some vs.length := by simp [position?]
  simpa using holds.set place stored

theorem extract_end {α : Type} (xs : Array α) (i : Nat) : (xs.extract i xs.size).toList = xs.toList.drop i := by
  rw [Array.toList_extract, extract_eq_take_drop]
  exact take_of_length_le (by simp)

theorem toList_advance (cs : Cells) :
    (advance ⟨cs, none⟩).cells.toList = cs.toList.drop 1 ++ cs.toList.drop (cs.size - 1) := by
  cases cs <;>
    simp only [advance, Cells.rearrange, Cells.toList, Cells.size, Array.toList_append, extract_end, map_append,
      map_drop, Option.getD_none]

theorem Holds.advance (holds : c.Holds k (v :: vs)) : ∃ u, c.advance.Holds k (vs ++ [u]) := by
  obtain ⟨flat, cells⟩ := holds.cells
  have last : (v :: vs).drop vs.length = [(v :: vs).getLast (cons_ne_nil v vs)] :=
    drop_length_sub_one (cons_ne_nil v vs)
  refine ⟨(v :: vs).getLast (cons_ne_nil v vs), ?_, ?_, ?_⟩
  · exact holds.rows
  · rw [← holds.kind, flat]
    cases c.cells <;> rfl
  · rw [flat]
    show (Column.advance ⟨c.cells, none⟩).cells.toList = _
    rw [toList_advance, cells, ← last, show c.cells.size = vs.length + 1 from holds.size]
    rfl

end Column

namespace SeriesRef

variable {s : Store} {r : SeriesRef} {k : Kind} {vs : List Value}

theorem outcome_step {w x : Value} (inside : (s.head r).column < s.columns.size)
    (holds : (s.column r).Holds k (x :: vs)) (kind : k = .float ∨ k = .int .long) (counts : v.isTrue)
    (stored : Cells.cellOf k v = .ok w) :
    ∃ c, outcome (r.step (some v)) s = (.ok r, s.setColumn r c) ∧ c.Holds k (vs ++ [w]) := by
  obtain ⟨u, moved⟩ := holds.advance
  obtain ⟨d, default⟩ : ∃ d, defaultOf k = .ok d := by
    rcases kind with rfl | rfl <;> exact ⟨_, rfl⟩
  obtain ⟨e, emptied, _⟩ := cellOf_default default
  obtain ⟨c₂, blank, holds₂⟩ := moved.set_last emptied
  obtain ⟨c₃, filled, holds₃⟩ := holds₂.set_last stored
  refine ⟨c₃, ?_, holds₃⟩
  let s₁ := s.setColumn r (s.column r).advance
  let s₂ := s.setColumn r c₂
  have column₁ : s₁.column r = (s.column r).advance := column_setColumn inside _
  have column₂ : s₂.column r = c₂ := column_setColumn inside _
  have read : outcome (SeriesRef.default r) s₁ = (.ok d, s₁) := by
    rw [outcome_default, column₁, moved.kind, default]
  have first : outcome (SeriesRef.set r (-1) d) s₁ = (.ok (), s₂) := by
    rw [outcome_set (column₁ ▸ blank), setColumn_setColumn]
  have second : outcome (SeriesRef.set r (-1) v) s₂ = (.ok (), s.setColumn r c₃) := by
    rw [outcome_set (column₂ ▸ filled), setColumn_setColumn]
  rw [step, bind_ok (outcome_modify _ s), bind_ok read, bind_ok first]
  simp only [counts, if_true]
  rw [bind_ok second]
  rfl

/-- The store after values are appended to a series one after the other, whether this fails or not. -/
def appended (r : SeriesRef) (vs : List Value) (s : Store) : Store :=
  vs.foldl (fun s v => leaves (r.append v) s) s

end SeriesRef

/-- The newest value of a source: that of its column, or the mean of two. -/
def Market.newest (m : Market) (s : Source) : Except Fault Value :=
  match Machine.sourceFields s with
  | [f] => Value.itemOf (m.candles.column f) (-1)
  | [f, g] => do
    let a ← Value.itemOf (m.candles.column f) (-1)
    let b ← Value.itemOf (m.candles.column g) (-1)
    Value.arith .div (← Value.arith .add a b) (.float 2.0)
  | _ => .error .operands

/-- A list that makes room for a value at its end, a number of times. -/
def shifted (n : Nat) (w : Value) (vs : List Value) : List Value :=
  (vs ++ replicate n w).drop n

theorem shifted_add (a b : Nat) (w : Value) (vs : List Value) :
    shifted (a + b) w vs = shifted b w (shifted a w vs) := by
  simp only [shifted, ← replicate_append_replicate, ← append_assoc, ← drop_drop]
  rw [drop_append_of_le_length (by simp : a ≤ (vs ++ replicate a w).length)]

theorem shifted_one (w v : Value) (vs : List Value) : shifted 1 w (v :: vs) = vs ++ [w] :=
  rfl

/-- Every series that is held: those of the registers, as often as they are there, and the times of the bars. -/
def Context.held (c : Context) : List SeriesRef :=
  c.registers.filterMap (fun x => match x.value with
    | .series r => some r
    | _ => none) ++ [c.timestamps]

namespace Machine

theorem outcome_liftM_bind {α β : Type} {e : Except Fault α} {f : α → MachineM β} {g : α → Except Fault β} {m : Machine}
    (rest : ∀ a, outcome (f a) m = (g a, m)) : outcome ((liftM e : MachineM α) >>= f) m = (e >>= g, m) := by
  cases e with
  | error e => rfl
  | ok a => exact rest a

theorem outcome_sourceAt (s : Source) (m : Machine) :
    outcome (sourceAt s (.int 1)) m = (m.market.newest s, m) := by
  rw [sourceAt, get_bind]
  cases s with
  | hl2 => exact outcome_liftM_bind fun a => outcome_liftM_bind fun b => outcome_liftM_bind fun _ => outcome_liftM _ m
  | hlc3 | ohlc4 => rfl
  | _ => exact outcome_liftM _ m

/-- The newest value of the source that a series is, as its column stores it; it has to count as true. -/
def newest? (m : Machine) (r : SeriesRef) : Option Value :=
  match (m.store.head r).origin with
  | .source s =>
    match m.market.newest s with
    | .ok v => if v.isTrue then (Cells.cellOf (m.store.column r).cells.kind v).toOption else none
    | .error _ => none
  | _ => none

/-- A price that is known to its end, for all bars of the market, and that no assignment or loop of the script can
    change. The newest price is `w`. -/
structure Price (m : Machine) (r : SeriesRef) (w : Value) : Prop where
  newest : m.newest? r = some w
  kind : (m.store.column r).cells.kind = .float ∨ (m.store.column r).cells.kind = .int .long
  rows : (m.store.column r).rowLen = none
  nonempty : 0 < (m.store.column r).size
  window : m.market.size ≤ (m.store.column r).size
  full : m.store.filled r
  unassigned : ∀ id ∈ m.program.mutable, ¬ m.Bound (some id) r
  many : m.program.code.hasLoop → 2 ≤ (m.store.column r).size

variable {p : Program} {m m' : Machine} {r : SeriesRef} {w : Value} {s : Store} {c : Context}

theorem Price.withStore (price : m.Price r w) (head : s.head r = m.store.head r) (rows : (s.column r).rowLen = none)
    (kind : (s.column r).cells.kind = (m.store.column r).cells.kind)
    (size : (s.column r).size = (m.store.column r).size) : Price { m with store := s } r w := by
  refine ⟨?_, kind ▸ price.kind, rows, size ▸ price.nonempty, size ▸ price.window, ?_, price.unassigned,
    size ▸ price.many⟩
  · have newest := price.newest
    simp only [newest?] at newest ⊢
    rw [head, kind]
    exact newest
  · have full := price.full
    simp only [filled, valid] at full ⊢
    rw [head, size]
    exact full

theorem Price.holds (price : m.Price r w) :
    ∃ v vs, (m.store.column r).toList = v :: vs ∧ (m.store.column r).Holds (m.store.column r).cells.kind (v :: vs) := by
  have holds : (m.store.column r).Holds (m.store.column r).cells.kind (m.store.column r).toList :=
    ⟨price.rows, rfl, rfl⟩
  have size := holds.size
  cases entries : (m.store.column r).toList with
  | nil =>
    have := price.nonempty
    rw [size, entries] at this
    exact (Nat.lt_irrefl 0 this).elim
  | cons v vs => exact ⟨v, vs, rfl, entries ▸ holds⟩

theorem newest?_eq_some (h : m.newest? r = some w) : ∃ s v, (m.store.head r).origin = .source s ∧
    m.market.newest s = .ok v ∧ v.isTrue ∧ Cells.cellOf (m.store.column r).cells.kind v = .ok w := by
  unfold newest? at h
  split at h
  next s origin =>
    split at h
    next v newest =>
      split at h
      next counts =>
        refine ⟨s, v, origin, newest, counts, ?_⟩
        cases stored : Cells.cellOf (m.store.column r).cells.kind v with
        | error e =>
          rw [stored] at h
          cases h
        | ok w' =>
          rw [stored] at h
          cases h
          rfl
      next => cases h
    next => cases h
  next => cases h

/-- Every price is moved on as often as it is in a list, and is still a price. -/
structure Shifts (rs : List SeriesRef) (m : Machine) (s : Store) : Prop where
  straight : m.store.Straight → s.Straight
  size : s.series.size = m.store.series.size
  prices : ∀ r w, r.id < m.store.series.size → m.Price r w →
    Price { m with store := s } r w ∧ (s.column r).toList = shifted (rs.count r) w (m.store.column r).toList

theorem Shifts.trans {rs rs' : List SeriesRef} {s' : Store} (first : Shifts rs m s)
    (second : Shifts rs' { m with store := s } s') : Shifts (rs ++ rs') m s' := by
  refine ⟨second.straight ∘ first.straight, second.size.trans first.size, fun r w present price => ?_⟩
  obtain ⟨price', entries⟩ := first.prices r w present price
  obtain ⟨price'', entries'⟩ := second.prices r w (first.size.symm ▸ present) price'
  refine ⟨price'', ?_⟩
  rw [entries', count_append, shifted_add, ← entries]

theorem stepSeries_shifts (straight : m.store.Straight) (present : r.id < m.store.series.size) (price : m.Price r w) :
    ∃ s, outcome (stepSeries r) m = (.ok (), { m with store := s }) ∧ Shifts [r] m s := by
  obtain ⟨s, v, origin, newest, counts, stored⟩ := newest?_eq_some price.newest
  obtain ⟨x, vs, entries, holds⟩ := price.holds
  have inside := straight.inside present
  obtain ⟨c, stepped, holds'⟩ := SeriesRef.outcome_step inside holds price.kind counts stored
  refine ⟨m.store.setColumn r c, ?_, fun straight => straight.setColumn r c, rfl, fun r' w' present' price' => ?_⟩
  · have asked : outcome (onStore r.origin) m = (.ok (.source s), m) := by
      exact congrArg (·, m) (congrArg Except.ok origin)
    rw [stepSeries, bind_ok asked]
    rw [bind_ok ((outcome_sourceAt s m).trans (congrArg (·, m) newest)), outcome_bind, outcome_onStore, stepped]
    rfl
  · by_cases same : r' = r
    · subst same
      have column := column_setColumn inside c
      cases price.newest.symm.trans price'.newest
      refine ⟨price'.withStore rfl ?_ ?_ ?_, ?_⟩
      · rw [column, holds'.rows]
      · rw [column, holds'.kind]
      · rw [column, holds'.size, holds.size]
        simp
      · rw [column, holds'.entries, entries, count_singleton_self, shifted_one]
    · -- Another price has a column of its own.
      obtain ⟨head, column⟩ := (setColumn_touches m.store c).other straight present' present (Ne.symm same)
      refine ⟨price'.withStore head ?_ ?_ ?_, ?_⟩
      · rw [column, price'.rows]
      · rw [column]
      · rw [column]
      · rw [column, count_eq_zero_of_not_mem (by simpa using same)]
        simp [shifted]

theorem forM_shifts (rs : List SeriesRef) (straight : m.store.Straight)
    (prices : ∀ r ∈ rs, r.id < m.store.series.size ∧ ∃ w, m.Price r w) :
    ∃ s, outcome (rs.forM stepSeries) m = (.ok (), { m with store := s }) ∧ Shifts rs m s := by
  induction rs generalizing m with
  | nil => exact ⟨m.store, rfl, id, rfl, fun r w _ price => ⟨price, by simp [shifted]⟩⟩
  | cons r rs ih =>
    obtain ⟨present, w, price⟩ := prices r (.head _)
    obtain ⟨s, stepped, shifts⟩ := stepSeries_shifts straight present price
    -- What is a price stays one, so that the rest of the list finds prices again.
    obtain ⟨s', rest, shifts'⟩ := ih (m := { m with store := s }) (shifts.straight straight) fun r' mem => by
      obtain ⟨present', w', price'⟩ := prices r' (.tail _ mem)
      exact ⟨shifts.size.symm ▸ present', w', (shifts.prices r' w' present' price').1⟩
    refine ⟨s', ?_, shifts.trans shifts'⟩
    exact (bind_ok stepped).trans rest

theorem registers_forM (rs : List Register) (r : SeriesRef) :
    (do rs.forM stepHeld; stepSeries r : MachineM Unit) = (rs.filterMap (fun x => match x.value with
      | .series r => some r
      | _ => none) ++ [r]).forM stepSeries := by
  induction rs with
  | nil => exact (bind_pure (stepSeries r)).symm
  | cons x rs ih =>
    obtain ⟨code, v⟩ := x
    change (do
      (do stepHeld ⟨code, v⟩; rs.forM stepHeld)
      stepSeries r : MachineM Unit) = _
    rw [bind_assoc, ih]
    cases v with
    | series r' => rfl
    | _ => rfl

/-- Goes to the next bar, and gives the actions of the broker. -/
def handOver : MachineM (List Action) := do
  modifyContext fun c => { c with bar := c.bar + 1 }
  match (← get).broker with
  | some b => b.delivered
  | none => throw .member

theorem store_handOver (m : Machine) : (leaves handOver m).store = m.store := by
  cases running : m.context with
  | none => rw [leaves, handOver, bind_error (outcome_modifyContext_none running _)]
  | some c =>
    rw [leaves, handOver, bind_ok (outcome_modifyContext running _), get_bind]
    cases m.broker with
    | none => rfl
    | some b => simp only [outcome_liftM]

theorem act_rests {text : String} (compiled : compile text = .ok p) (fit : Fit p m)
    (atRest : m.AtRest p.mutable p.code.hasLoop r) : (leaves act m).store.column r = m.store.column r := by
  obtain ⟨nodes, numbered⟩ := compile_fits compiled
  obtain rfl := fit.program
  have calm : Calm nodes m.program.mutable m.program.code.hasLoop m.program.code :=
    ⟨compile_closed compiled, numbered, compile_marked compiled, fun loops => loops⟩
  have rests : Rests m.program.mutable m.program.code.hasLoop r m (leaves (work m.program) m) :=
    leaves_bind ((rests_permits nodes _ _ r).eval calm rfl fit.sound atRest) fun _ m' _ before =>
      before.trans (before.atRest.quiet (brokerStep_quiet m'))
  -- All that writes comes before the bar is counted on.
  have acted : outcome act m = outcome (work m.program >>= fun _ => handOver) m := by
    simp only [act, step, work, handOver, bind_assoc]
    rfl
  rw [leaves, acted]
  refine leaves_bind (P := fun m' : Machine => m'.store.column r = m.store.column r) rests.column fun _ m' _ same => ?_
  rw [store_handOver]
  exact same

theorem makeRoom_shifts (running : m.context = some c) (straight : m.store.Straight)
    (prices : ∀ r ∈ c.held, r.id < m.store.series.size ∧ ∃ w, m.Price r w) :
    ∃ s, outcome (makeRoom c) m = (.ok (), { m with
      store := s
      context := some { c with bar := (m.market.size : Int) - 2 } }) ∧ Shifts c.held m s := by
  obtain ⟨s, moved, shifts⟩ := forM_shifts c.held straight prices
  refine ⟨s, ?_, shifts⟩
  have split : makeRoom c = (do
      c.held.forM stepSeries
      let n ← barCount
      modifyContext fun c => { c with bar := n - 2 }) := by
    rw [Context.held, ← registers_forM, bind_assoc]
    rfl
  have counted : outcome barCount { m with store := s } = (.ok m.market.size, { m with store := s }) := rfl
  have here : ({ m with store := s } : Machine).context = some c := running
  rw [split, bind_ok moved, bind_ok counted, outcome_modifyContext here]

theorem Sound.held_open {apart : Nat → Prop} (sound : m.Sound apart) (running : m.context = some c)
    (mem : r ∈ c.held) : m.store.Open apart r := by
  rcases mem_append.mp mem with held | times
  · obtain ⟨x, member, value⟩ := mem_filterMap.mp held
    refine sound.held c running x member r ?_
    split at value
    · cases value
      assumption
    · cases value
  · cases mem_singleton.mp times
    exact sound.times c running

theorem Price.atRest (price : Price { m with store := s } r w) (running : m.context = some c) (straight : s.Straight)
    (present : r.id < s.series.size) :
    AtRest m.program.mutable m.program.code.hasLoop r
      { m with store := s, context := some { c with bar := (m.market.size : Int) - 2 } } := by
  have here : ({ m with store := s } : Machine).context = some c := running
  refine ⟨straight, present, price.many, price.full, ?_, fun id mem bound => ?_⟩
  · rintro bar ⟨⟩
    have valid : s.valid r = ((s.column r).size : Int) - 1 := eq_of_beq price.full
    have window : m.market.size ≤ (s.column r).size := price.window
    show (m.market.size : Int) - 2 < s.valid r
    omega
  · refine price.unassigned id mem ?_
    rw [Bound, Machine.holds, here]
    exact bound

/-- A machine that holds prices only, and is served with a new candle, moves each of them on by as many places as it is
    held times; the newest price takes the places that become free. So a price is moved on by exactly one place if
    nothing else holds it. Whether the evaluation that follows succeeds or fails is all the same. -/
theorem stepNew_shifts {text : String} {c : Context} (compiled : compile text = .ok p) (session : Session p m)
    (running : m.context = some c) (prices : ∀ r ∈ c.held, ∃ w, m.Price r w) (held : r ∈ c.held)
    (newest : m.newest? r = some w) :
    ((leaves stepNew m).store.column r).toList = shifted (c.held.count r) w (m.store.column r).toList ∧
      (c.held.count r = 1 → ((leaves stepNew m).store.column r).toList = (m.store.column r).toList.tail ++ [w]) := by
  have fit := session.fit (compile_closed compiled)
  obtain rfl := fit.program
  have present (r : SeriesRef) (among : r ∈ c.held) := (fit.sound.held_open running among).present
  obtain ⟨w', price⟩ := prices r held
  cases newest.symm.trans price.newest
  obtain ⟨s, done, shifts⟩ := makeRoom_shifts running fit.straight fun r among => ⟨present r among, prices r among⟩
  obtain ⟨price', entries⟩ := shifts.prices r w (present r held) price
  have follows := (makeRoom_keeps c m fit.sound (fit.sound.opens running)).1
  rw [done] at follows
  have straight := shifts.straight fit.straight
  -- Evaluation goes on at the last bar but one, and the prices are known up to the last.
  have atRest := price'.atRest running straight (shifts.size.symm ▸ present r held)
  have moved : ((leaves stepNew m).store.column r).toList = shifted (c.held.count r) w (m.store.column r).toList := by
    rw [leaves, stepNew_eq, bind_ok (outcome_current running), bind_ok done]
    have rests := act_rests compiled (fit.follows follows) atRest
    rw [leaves] at rests
    rw [rests]
    exact entries
  refine ⟨moved, fun once => ?_⟩
  obtain ⟨v, vs, entries, _⟩ := price.holds
  rw [moved, once, entries, shifted_one, tail_cons]

/-- Whether a series is a price that has a newest value, in a script that neither assigns nor loops. -/
def hasPrice (m : Machine) (r : SeriesRef) : Bool :=
  (m.newest? r).isSome && (m.store.column r).cells.kind == .int .long && (m.store.column r).rowLen.isNone &&
    decide (0 < (m.store.column r).size) && decide (m.market.size ≤ (m.store.column r).size) && m.store.filled r &&
      m.program.mutable.isEmpty && !m.program.code.hasLoop

theorem price_of_hasPrice (h : m.hasPrice r) : ∃ w, m.Price r w := by
  simp only [hasPrice, Bool.and_eq_true, decide_eq_true_eq, Bool.not_eq_true', List.isEmpty_iff,
    Option.isNone_iff_eq_none] at h
  obtain ⟨⟨⟨⟨⟨⟨⟨newest, kind⟩, rows⟩, nonempty⟩, window⟩, full⟩, unassigned⟩, straight⟩ := h
  obtain ⟨w, newest⟩ := Option.isSome_iff_exists.mp newest
  refine ⟨w, newest, .inr (eq_of_beq kind), rows, nonempty, window, full, fun id mem => ?_, fun loops => ?_⟩
  · rw [unassigned] at mem
    cases mem
  · rw [straight] at loops
    cases loops

/-- A program, the machine that was booted on candles with it and connected to a broker, and what it holds. -/
def connected (text : String) (w : List Candle) : Option (Program × Machine × Context) :=
  match booted text w with
  | some (p, m) => m.context.map (p, { m with broker := some .remote }, ·)
  | none => none

theorem connected_eq_some {text : String} {candles : List Candle} (h : connected text candles = some (p, m, c)) :
    compile text = .ok p ∧ Session p m ∧ m.context = some c := by
  unfold connected at h
  split at h
  next p' m' booted =>
    obtain ⟨c', running, same⟩ := Option.map_eq_some_iff.mp h
    cases same
    obtain ⟨compiled, m₀, session, done⟩ := booted_eq_some booted
    have left : leaves (boot (sent CandleField.all candles)) m₀ = m' := congrArg Prod.snd done
    exact ⟨compiled, .connect (left ▸ .boot session _), running⟩
  next => cases h

/-- Of two prices, one is held twice and moved on by two places; the other is moved on by one. -/
theorem stepNew_shifts_shared : ∃ p m c r r' w w', compile "a = close\nb = a\nc = open\n" = .ok p ∧ Session p m ∧
    m.context = some c ∧ (∀ r ∈ c.held, ∃ w, m.Price r w) ∧ r ∈ c.held ∧ m.newest? r = some w ∧
    ((leaves stepNew m).store.column r).toList = shifted 2 w (m.store.column r).toList ∧
    r' ∈ c.held ∧ m.newest? r' = some w' ∧
    ((leaves stepNew m).store.column r').toList = (m.store.column r').toList.tail ++ [w'] := by
  have checked : (connected "a = close\nb = a\nc = open\n" (flatCandles 60 60 [7, 8, 9])).any fun (_, m, c) =>
      c.held.all m.hasPrice && c.held.any (c.held.count · == 2) && c.held.any (c.held.count · == 1) := by
    decide +kernel
  obtain ⟨⟨p, m, c⟩, given, holds⟩ := (Option.any_eq_true _ _).mp checked
  simp only [Bool.and_eq_true, all_eq_true, any_eq_true, beq_iff_eq] at holds
  obtain ⟨⟨all, r, held, twice⟩, r', held', once⟩ := holds
  obtain ⟨compiled, session, running⟩ := connected_eq_some given
  have prices : ∀ r ∈ c.held, ∃ w, m.Price r w := fun r among => price_of_hasPrice (all r among)
  obtain ⟨w, price⟩ := prices r held
  obtain ⟨w', price'⟩ := prices r' held'
  have moved := (stepNew_shifts compiled session running prices held price.newest).1
  have moved' := (stepNew_shifts compiled session running prices held' price'.newest).2 once
  rw [twice] at moved
  exact ⟨p, m, c, r, r', w, w', compiled, session, running, prices, held, price.newest, moved, held', price'.newest,
    moved'⟩

/-- A price that two registers hold is not moved on by one place, whatever takes its last place. -/
theorem shared_price_skips : ∃ p m c r, compile "a = close\nb = a\n" = .ok p ∧ Session p m ∧ m.context = some c ∧
    (∀ r ∈ c.held, ∃ w, m.Price r w) ∧ r ∈ c.held ∧
    ∀ w, ((leaves stepNew m).store.column r).toList ≠ (m.store.column r).toList.tail ++ [w] := by
  let first (vs : List Value) : Option Int := vs.head?.bind fun v => v.toInt.toOption
  have checked : (connected "a = close\nb = a\n" (flatCandles 60 60 [7, 8, 9])).any fun (_, m, c) =>
      c.held.all m.hasPrice && c.held.any fun r => first ((leaves stepNew m).store.column r).toList == some 9 &&
        first (m.store.column r).toList.tail == some 8 := by
    decide +kernel
  obtain ⟨⟨p, m, c⟩, given, holds⟩ := (Option.any_eq_true _ _).mp checked
  simp only [Bool.and_eq_true, all_eq_true, any_eq_true, beq_iff_eq] at holds
  obtain ⟨all, r, held, after, before⟩ := holds
  obtain ⟨compiled, session, running⟩ := connected_eq_some given
  refine ⟨p, m, c, r, compiled, session, running, fun r among => price_of_hasPrice (all r among), held, ?_⟩
  intro w same
  rw [same] at after
  cases tail : (m.store.column r).toList.tail with
  | nil =>
    rw [tail] at before
    cases before
  | cons v vs =>
    rw [tail] at before after
    have equal : first (v :: vs ++ [w]) = first (v :: vs) := rfl
    cases after.symm.trans (equal.trans before)

end Machine

end PineEngine
