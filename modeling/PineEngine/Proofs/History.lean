import PineEngine.Proofs.Occasions

/-! # History

What a machine has recorded for the bars before the current one stays as it is. Evaluating code at a bar
leaves every series that a register holds in that register, with its length and kind, with its entries at
all other bars, and with a valid index that is the old one or the bar (`Machine.Kept`).

The one exception is a loop that counts with a series: its counter is moved on in place. Such a series is a
single cell, so a script without loops, and a series of any other length, is not touched.
-/

namespace PineEngine

open Script Builtin Computation Store

/-- What may become of a column at a bar; `counts` tells whether there may be a loop that counts with it. -/
structure Column.Kept (bar : Int) (counts : Prop) (c c' : Column) : Prop where
  rowLen : c'.rowLen = c.rowLen
  kind : c'.cells.kind = c.cells.kind
  size : c'.size = c.size
  entries : (c.size = 1 ∧ counts) ∨ ∀ j : Nat, (j : Int) ≠ bar → c'.get j = c.get j

theorem Column.Kept.length {bar : Int} {counts : Prop} {c c' : Column} (kept : c.Kept bar counts c') :
    c'.length = c.length := by
  rw [Column.length, Column.length, kept.rowLen, kept.size]

structure SeriesHead.Kept (bar : Int) (h h' : SeriesHead) : Prop where
  column : h'.column = h.column
  origin : h'.origin = h.origin
  valid : h'.valid = h.valid ∨ h'.valid = bar

structure Store.Kept (bar : Int) (counts : Prop) (s s' : Store) : Prop where
  series : Carried (SeriesHead.Kept bar) s.series s'.series
  columns : Carried (Column.Kept bar counts) s.columns s'.columns

section Preorders

variable {bar : Int} {counts : Prop}

instance : Std.Refl (Column.Kept bar counts) :=
  ⟨fun _ => ⟨rfl, rfl, rfl, .inr fun _ _ => rfl⟩⟩

instance : Trans (Column.Kept bar counts) (Column.Kept bar counts) (Column.Kept bar counts) where
  trans first second := by
    refine ⟨second.rowLen.trans first.rowLen, second.kind.trans first.kind, second.size.trans first.size, ?_⟩
    rcases first.entries with loose | same
    · exact .inl loose
    · rcases second.entries with ⟨one, loose⟩ | same'
      · exact .inl ⟨first.size ▸ one, loose⟩
      · exact .inr fun j other => (same' j other).trans (same j other)

instance : Std.Refl (SeriesHead.Kept bar) :=
  ⟨fun _ => ⟨rfl, rfl, .inl rfl⟩⟩

instance : Trans (SeriesHead.Kept bar) (SeriesHead.Kept bar) (SeriesHead.Kept bar) where
  trans first second := by
    refine ⟨second.column.trans first.column, second.origin.trans first.origin, ?_⟩
    rcases second.valid with same | now
    · rw [same]
      exact first.valid
    · exact .inr now

instance : Std.Refl (Store.Kept bar counts) :=
  ⟨fun _ => ⟨.refl _, .refl _⟩⟩

instance : Trans (Store.Kept bar counts) (Store.Kept bar counts) (Store.Kept bar counts) :=
  ⟨fun first second => ⟨first.series.trans second.series, first.columns.trans second.columns⟩⟩

end Preorders

namespace Store

variable {bar : Int} {counts : Prop} {s₀ s s' : Store} {r : SeriesRef}

theorem Kept.trans {s'' : Store} (first : s.Kept bar counts s') (second : s'.Kept bar counts s'') :
    s.Kept bar counts s'' :=
  Trans.trans first second

theorem Grows.kept (grows : s.Grows s') : s.Kept bar counts s' :=
  ⟨grows.series.of_eq Std.Refl.refl, grows.columns.of_eq Std.Refl.refl⟩

theorem Kept.series_of_open {apart : Nat → Prop} (kept : s.Kept bar counts s') (opens : s.Open apart r) :
    (s.head r).Kept bar (s'.head r) ∧ (s.column r).Kept bar counts (s'.column r) := by
  obtain ⟨h', there, head⟩ := kept.series r.id _ (series_head opens.present)
  obtain ⟨c', inside, column⟩ := kept.columns _ _ (columns_column opens.inside)
  rw [← head_of_series there] at head
  rw [← head.column] at inside
  rw [← column_of_columns inside] at column
  exact ⟨head, column⟩

theorem Beyond.kept (beyond : s₀.Beyond s r) (kept : s.Kept bar counts s') :
    s₀.columns.size ≤ (s'.head r).column := by
  obtain ⟨h', there, same⟩ := kept.series r.id _ (series_head beyond.present)
  rw [head_of_series there, same.column]
  exact beyond.column

theorem Kept.touches (kept : s₀.Kept bar counts s) (new : s₀.series.size ≤ r.id)
    (own : s₀.columns.size ≤ (s.head r).column) (touches : s.Touches r s') : s₀.Kept bar counts s' := by
  constructor
  · intro i h here
    obtain ⟨h', there, same⟩ := kept.series i h here
    have := (Array.getElem?_eq_some_iff.mp here).1
    exact ⟨h', (touches.heads i (by omega)).trans there, same⟩
  · intro k c here
    obtain ⟨c', there, same⟩ := kept.columns k c here
    have := (Array.getElem?_eq_some_iff.mp here).1
    exact ⟨c', (touches.columns k (by omega)).trans there, same⟩

theorem set_kept (bar : Nat) (r : SeriesRef) (v : Value) :
    Obeys (Store.Kept bar counts) (SeriesRef.set r bar v) := by
  refine SeriesRef.update_obeys fun s c stored => ?_
  obtain ⟨rowLen, kind, size, entries⟩ := Column.set_entries stored
  refine ⟨.refl _, (Carried.refl _).set fun x here => ?_⟩
  rw [column_of_columns here] at rowLen kind size entries
  exact ⟨rowLen, kind, size, .inr fun j other => entries j (by omega)⟩

theorem setValid_kept (r : SeriesRef) : Obeys (Store.Kept bar counts) (SeriesRef.setValid r bar) := by
  intro s
  refine ⟨(Carried.refl _).set fun h here => ?_, .refl _⟩
  rw [head_of_series here]
  exact ⟨rfl, rfl, .inr rfl⟩

theorem count_kept (op : ArithOp) (single : (s.column r).Single) (counting : counts) :
    s.Kept bar counts (leaves (r.update fun c => do
      let next ← Column.arith op (.column c) (.single (.int 1))
      if next.cells.kind == c.cells.kind then pure next else .error .operands) s) := by
  have read : outcome (SeriesRef.column r) s = (.ok (s.column r), s) := rfl
  rw [leaves, SeriesRef.update, bind_ok read]
  cases counted : (do
      let next ← Column.arith op (.column (s.column r)) (.single (.int 1))
      if next.cells.kind == (s.column r).cells.kind then pure next else .error .operands : Except Fault Column) with
  | error e => exact Std.Refl.refl s
  | ok next =>
    have form := Column.count_form counted
    refine ⟨.refl _, (Carried.refl _).set fun x here => ?_⟩
    rw [column_of_columns here] at form single
    refine ⟨form.rows, form.kind, ?_, .inl ⟨single.size, counting⟩⟩
    have length := form.length
    rcases single.rows with none | some
    · simpa [Column.length, form.rows, none] using length
    · simpa [Column.length, form.rows, some] using length

end Store

namespace Machine

variable {bar : Int} {counts : Prop} {expr : MachineM Value} {m₀ : Machine} {inline t : Bool}

/-- What may become of a machine at a bar: it stays at that bar, and its registers keep their series. -/
structure KeptAt (bar : Int) (counts : Prop) (m m' : Machine) : Prop where
  now : m'.barNow = some bar
  bound : ∀ id r, m.Bound id r → m'.Bound id r
  store : m.store.Kept bar counts m'.store

/-- A machine at the given bar may become only what that bar allows. -/
def Kept (bar : Int) (counts : Prop) (m m' : Machine) : Prop :=
  m.barNow = some bar → KeptAt bar counts m m'

variable {m m' m'' : Machine} {code : Code} {scope : Scope} {v last : Value} {c r : SeriesRef}
  {no yes body : MachineM Value} {up : Bool}

theorem KeptAt.trans (first : KeptAt bar counts m m') (second : KeptAt bar counts m' m'') : KeptAt bar counts m m'' :=
  ⟨second.now, fun id r bound => second.bound id r (first.bound id r bound),
    first.store.trans second.store⟩

instance : Std.Refl (Kept bar counts) :=
  ⟨fun _ now => ⟨now, fun _ _ bound => bound, Std.Refl.refl _⟩⟩

instance : Trans (Kept bar counts) (Kept bar counts) (Kept bar counts) :=
  ⟨fun first second now => (first now).trans (second (first now).now)⟩

instance : Tolerant (Kept bar counts) where
  store _ _ grows now := ⟨now, fun _ _ bound => bound, grows.kept⟩
  header _ _ now := ⟨now, fun _ _ bound => bound, Std.Refl.refl _⟩
  outputs _ _ now := ⟨now, fun _ _ bound => bound, Std.Refl.refl _⟩
  fills _ _ now := ⟨now, fun _ _ bound => bound, Std.Refl.refl _⟩
  broker _ _ _ _ _ now := ⟨now, fun _ _ bound => bound, Std.Refl.refl _⟩

theorem onStore_kept {α : Type} {x : SeriesM α} (kept : Obeys (Store.Kept bar counts) x) :
    Obeys (Kept bar counts) (onStore x) := by
  intro m now
  rw [leaves, outcome_onStore]
  exact ⟨now, fun _ _ bound => bound, kept m.store⟩

theorem KeptAt.put (kept : KeptAt bar counts m m') (free : ∀ r, m.Bound code.id? r → v = .series r) :
    KeptAt bar counts m (m'.put code v) := by
  refine ⟨by rw [barNow_put]; exact kept.now, fun id r bound => ?_, kept.store⟩
  exact (kept.bound id r bound).put fun same => free r (same ▸ bound)

theorem storeAt_kept (later : 1 ≤ bar) (r : SeriesRef) (v : Value) : Obeys (Kept bar counts) (storeAt r bar v) := by
  obtain ⟨b, rfl⟩ : ∃ b : Nat, bar = b := ⟨bar.toNat, by omega⟩
  exact .bind (onStore_kept (set_kept b r v)) fun _ => onStore_kept (setValid_kept r)

theorem Quiet.kept (quiet : m.Quiet m') : Kept bar counts m m' := by
  intro now
  refine ⟨?_, fun id r bound => ?_, quiet.store.kept⟩
  · rw [barNow, quiet.context]
    exact now
  · rw [Bound, holds, quiet.context]
    exact bound

theorem Made.fill_kept {s : Store} (made : Made (Kept bar counts) m m' r) (before : KeptAt bar counts m m')
    (now : m.barNow = some bar) (touches : m'.store.Touches r s) : m.store.Kept bar counts s := by
  obtain ⟨first, quiet, added, since, _, filled⟩ := made
  have first := first now
  have since := since (quiet.kept first.now : KeptAt bar counts _ _).now
  refine before.store.touches (Nat.le_trans first.store.series.size_le added.series) ?_ touches
  rw [filled.own]
  exact Nat.le_trans first.store.columns.size_le (added.toBeyond.kept since.store)

/-- From the second bar on a machine may become what that bar allows. -/
theorem kept_permits (later : 1 ≤ bar) (nodes : List Code) (ids : List Nat) :
    Permits nodes ids counts (Kept bar counts) where
  refl := Std.Refl.refl
  trans := Trans.trans
  quiet := Quiet.kept
  builtin _ first _ now := by
    cases first.symm.trans now
    contradiction
  define _ _ _ _ before _ free now :=
    (before now).put fun r bound => (free r ((before now).bound _ r bound)).elim
  alloc {m _ _ _ _ c} _ _ free _ now := by
    have grown : KeptAt bar counts m { m with store := (m.store.alloc c (-1) .plain).2 } :=
      ⟨now, fun _ _ bound => bound, (alloc_grows ..).kept⟩
    exact grown.put fun r bound => (free r bound).elim
  choose _ free before _ now := (before now).put fun r bound => (free r bound).elim
  fill before made _ touches _ now :=
    ⟨(before now).now, (before now).bound, made.fill_kept (before now) now touches⟩
  write before _ here _ _ v now := by
    cases here.symm.trans (before now).now
    exact (before now).trans (storeAt_kept later _ v _ here)
  count _ _ held _ _ before counted now := by
    refine (before now).put fun r bound => ?_
    cases held.symm.trans bound
    rcases counted with rfl | ⟨_, single, _⟩
    · rfl
    · exact (single r rfl).elim
  advance looping _ single up now := by
    rw [Machine.advance, leaves_bind_pure, leaves, outcome_onStore]
    exact ⟨now, fun _ _ bound => bound, count_kept _ single looping⟩

theorem step_kept {p : Program} {c : Context} (calm : Calm nodes p.mutable counts p.code) (program : m.program = p)
    (sound : m.Sound fun _ => False) (running : m.context = some c) (later : 1 ≤ c.bar) :
    (∀ id r, m.Bound id r → (leaves step m).Bound id r) ∧ m.store.Kept c.bar counts (leaves step m).store := by
  subst program
  have works : Kept c.bar counts m (leaves (work m.program) m) :=
    leaves_bind ((kept_permits later nodes m.program.mutable).eval calm rfl sound) fun _ m' _ before =>
      Trans.trans before (brokerStep_quiet (R := Kept c.bar counts) m')
  have after := works (by rw [barNow, running]; rfl)
  rw [leaves, outcome_step]
  refine leaves_bind (P := fun m' : Machine => (∀ id r, m.Bound id r → m'.Bound id r) ∧
    m.store.Kept c.bar counts m'.store) ⟨after.bound, after.store⟩ fun _ m' _ kept => ?_
  rw [leaves_modifyContext]
  exact ⟨fun id r bound => (holds_modifyBar m' (· + 1) id).trans (kept.1 id r bound), kept.2⟩

/-- What is kept at a bar of a series that a register holds; `counts` tells whether there may be a loop that
    counts with it. -/
structure HistoryKept (bar : Int) (counts : Prop) (m m' : Machine) (id : Option Nat) (r : SeriesRef) : Prop where
  bound : m'.Bound id r
  length : (m'.store.column r).length = (m.store.column r).length
  kind : (m'.store.column r).cells.kind = (m.store.column r).cells.kind
  valid : m'.store.valid r = m.store.valid r ∨ m'.store.valid r = bar
  entries : (m.store.column r).size = 1 ∧ counts ∨
    ∀ j : Nat, (j : Int) ≠ bar → (m'.store.column r).get j = (m.store.column r).get j

/-- A step at a bar after the first leaves every series that a register holds in that register, with its
    length and kind, and with a valid index that is the old one or the bar. It leaves the entries at all
    other bars as they are, unless the series is a single cell and the script has a loop to count with it. -/
theorem step_history {text : String} {p : Program} {m : Machine} {c : Context} {id : Option Nat} {r : SeriesRef}
    (compiled : compile text = .ok p) (run : Reached p m) (running : m.context = some c) (later : 1 ≤ c.bar)
    (bound : m.Bound id r) : HistoryKept c.bar p.code.hasLoop m (leaves step m) id r := by
  obtain ⟨nodes, fit⟩ := compile_fits compiled
  obtain ⟨sound, program⟩ := run.sound (compile_closed compiled)
  have calm : Calm nodes p.mutable p.code.hasLoop p.code :=
    ⟨compile_closed compiled, fit, compile_marked compiled, fun loops => loops⟩
  obtain ⟨stays, kept⟩ := step_kept calm program sound running later
  obtain ⟨head, column⟩ := kept.series_of_open (sound.registers _ r bound)
  exact ⟨stays id r bound, column.length, column.kind, head.valid, column.entries⟩

def heldAt (m : Machine) (bar : Int) (id : Nat) : Option (Context × SeriesRef) :=
  match m.context, m.holds (some id) with
  | some c, some (.series r) => if c.bar = bar then some (c, r) else none
  | _, _ => none

theorem heldAt_eq_some {id : Nat} {c : Context} (h : m.heldAt bar id = some (c, r)) :
    m.context = some c ∧ c.bar = bar ∧ m.Bound (some id) r := by
  unfold heldAt at h
  split at h
  next running held =>
    split at h
    next here =>
      cases h
      exact ⟨running, here, held⟩
    next => cases h
  next => cases h

/-- The second step over two bars, with a definition of the first that is kept. -/
theorem step_history_close : ∃ p m c r, compile "x = close\n" = .ok p ∧ Reached p m ∧ m.context = some c ∧
    1 ≤ c.bar ∧ m.Bound (some 1) r ∧ HistoryKept c.bar p.code.hasLoop m (leaves step m) (some 1) r := by
  have reached : (ran "x = close\n" (.flat [1.0, 10.0]) 1).any (fun (_, m) => (m.heldAt 1 1).isSome) := by
    decide +kernel
  obtain ⟨⟨p, m⟩, given, held⟩ := (Option.any_eq_true _ _).mp reached
  obtain ⟨⟨c, r⟩, held⟩ := Option.isSome_iff_exists.mp held
  obtain ⟨compiled, run⟩ := ran_reached given
  obtain ⟨running, here, bound⟩ := heldAt_eq_some held
  have later : 1 ≤ c.bar := by omega
  exact ⟨p, m, c, r, compiled, run, running, later, bound, step_history compiled run running later bound⟩

/-- A script that keeps a series of a single cell, and counts with it from the second bar on. -/
def countingText : String :=
  "s = close > 0 ? nz(pivothigh(close + [[1.0]], 5, 5)) : 0.0\nif close > 5\n    for i = s to 3\n        close\n"

/-- A loop that counts with a series rewrites its entry for the bar before. -/
theorem step_counts_in_place : ∃ p m c r, compile countingText = .ok p ∧ Reached p m ∧ m.context = some c ∧
    1 ≤ c.bar ∧ m.Bound (some 5) r ∧ ∃ j : Nat, (j : Int) ≠ c.bar ∧
      ((leaves step m).store.column r).get j ≠ (m.store.column r).get j := by
  have reached : (ran countingText (.flat [1.0, 10.0]) 1).any (fun (_, m) => (m.heldAt 1 5).any fun (_, r) =>
      ((m.store.column r).get 0).toOption.map Value.isTrue == some false &&
        (((leaves step m).store.column r).get 0).toOption.map Value.isTrue == some true) := by
    decide +kernel
  obtain ⟨⟨p, m⟩, given, held⟩ := (Option.any_eq_true _ _).mp reached
  obtain ⟨⟨c, r⟩, held, changed⟩ := (Option.any_eq_true _ _).mp held
  obtain ⟨compiled, run⟩ := ran_reached given
  obtain ⟨running, here, bound⟩ := heldAt_eq_some held
  obtain ⟨before, after⟩ := Bool.and_eq_true_iff.mp changed
  refine ⟨p, m, c, r, compiled, run, running, by omega, bound, 0, by simp [here], fun same => ?_⟩
  change (((leaves step m).store.column r).get (0 : Int)) = (m.store.column r).get (0 : Int) at same
  rw [same] at after
  exact Bool.false_ne_true (Option.some.inj ((eq_of_beq before).symm.trans (eq_of_beq after)))

end Machine

end PineEngine
