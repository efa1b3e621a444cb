import PineEngine.Proofs.Choices
import PineEngine.Proofs.Sharing

/-! # What an assignment changes

An assignment stores one entry in the series that is kept for its target. So it changes, besides its target, just the
variables that keep this very series (`Machine.assign_changes`). No other variable that some assignment changes is
among them. A variable that is defined as the target and never assigned to is, at every bar: it shows what is assigned,
not what the target had when it was defined.

A variable that is defined as the target and assigned to elsewhere takes an entry of its own, but not at the bar where
it is met first.
-/

namespace PineEngine

open Script Builtin Computation Store Code

namespace Script.Code

variable {nodes : List Code}

/-- The call that describes the script has its nodes among given ones. -/
def HeaderFits (nodes : List Code) (a : Annotations) : Prop :=
  ∀ header, a.header = some header → header.fits nodes

theorem annotate_fits {a : Annotations} (noted : HeaderFits nodes a) (c : Code) (fit : c.fits nodes) :
    HeaderFits nodes (c.annotate a) := by
  refine annotate_keeps (P := HeaderFits nodes) (K := (·.fits nodes)) fits_child
    (fun {a id name fn args named} fit _ noted => ?_) c fit noted
  cases fn.role with
  | header =>
    intro header h
    cases h
    exact fit
  | _ => exact noted

end Script.Code

/-- Code of a script: it names no series of its own, its nodes are among given ones, and it assigns only to definitions
    that were noted. -/
structure Script.Program.Has (p : Program) (nodes : List Code) (c : Code) : Prop where
  closed : c.closed
  fits : c.fits nodes
  marked : c.marked p.mutable

theorem Script.Program.Has.part {p : Program} {nodes : List Code} {c d : Code} (has : p.Has nodes c)
    (mem : d ∈ c.evaluated) : p.Has nodes d :=
  ⟨closed_part has.closed mem, fits_child has.fits (child_of_evaluated mem),
    marked_part has.marked mem⟩

theorem Script.Program.Has.calm {p : Program} {nodes : List Code} {c : Code} (has : p.Has nodes c) :
    Machine.Calm nodes p.mutable True c :=
  ⟨has.closed, has.fits, has.marked, fun _ => trivial⟩

namespace Machine

variable {nodes : List Code} {ids : List Nat} {m m' : Machine} {p : Program}

theorem Allotted.of_empty (empty : ∀ id, m.holds id = none) : m.Allotted nodes ids := by
  have unbound (id : Option Nat) (r : SeriesRef) : ¬ m.Bound id r := by
    intro bound
    rw [Bound, empty] at bound
    cases bound
  refine ⟨fun _ _ _ _ bound => (unbound _ _ bound).elim, fun _ _ _ bound => (unbound _ _ bound).elim,
    fun _ _ _ _ _ _ _ bound => (unbound _ _ bound).elim, ?_⟩
  intro _ _ _ _ _ _ _ _ _ _ held
  rw [empty] at held
  cases held

theorem reset_empty (empty : ∀ id, m.holds id = none) (id : Option Nat) : (leaves reset m).holds id = none := by
  rw [leaves, reset, get_bind]
  have quiet : m.Quiet (leaves (sourceSeries .time m.market.candles.time) m) := sourceSeries_quiet _ _ m
  refine leaves_bind (P := fun m' : Machine => m'.holds id = none) ?_ fun _ _ _ _ => rfl
  rw [holds, quiet.context]
  exact empty id

theorem load_empty (idle : m.context = none) (fit : p.code.fits nodes) (id : Option Nat) :
    (leaves (load p) m).holds id = none := by
  have empty {m : Machine} (idle : m.barNow = none) (id : Option Nat) : m.holds id = none := by
    rw [holds, Option.map_eq_none_iff.mp idle, Option.bind_none]
  have here : (m.taking p).barNow = none := Option.map_eq_none_iff.mpr idle
  rw [leaves, load, bind_ok (outcome_modify _ m)]
  split
  next header h =>
    have unnoted : Code.HeaderFits nodes {} := fun _ found => by cases found
    have fitHeader := annotate_fits unnoted p.code fit header h
    have evaluates := eval_leaves { mutable := p.mutable } nodes header fitHeader (m.taking p)
    change (leaves (do
      let _ ← eval { mutable := p.mutable } header
      if (← get).broker.isSome then throw .member
      reset) (m.taking p)).holds id = none
    refine leaves_bind (P := fun m' : Machine => m'.holds id = none) ?_ fun _ m₁ found _ => ?_
    · exact empty (evaluates.bar.trans here) id
    · have idle : m₁.barNow = none := by
        rw [leaves, found] at evaluates
        exact evaluates.bar.trans here
      rw [leaves, get_bind]
      split
      · exact empty idle id
      · exact reset_empty (empty idle) id
  next => exact reset_empty (empty here) id

theorem Reached.allotted (script : p.Has nodes p.code) (run : Reached p m) : m.Allotted nodes p.mutable := by
  induction run with
  | load mode market library => exact .of_empty (load_empty rfl script.fits)
  | equip run plain told ih => exact ih.of_holds rfl (Std.Refl.refl _ : Revises _ _) fun _ => rfl
  | @step m run ih =>
    obtain ⟨sound, rfl⟩ := run.sound script.closed
    have works : (leaves (work m.program) m).Allotted nodes m.program.mutable :=
      leaves_bind (P := fun m' : Machine => m'.Allotted nodes m.program.mutable) (eval_tends script.calm rfl sound ih).allotted
        fun _ m' _ allotted => (brokerStep_quiet (R := Tends nodes m.program.mutable) m' allotted).allotted
    rw [leaves, outcome_step]
    refine leaves_bind (P := fun m' : Machine => m'.Allotted nodes m.program.mutable) works fun _ m' _ allotted => ?_
    rw [leaves_modifyContext]
    exact allotted.of_holds rfl (Std.Refl.refl m'.store) (holds_modifyBar m' (· + 1))

theorem Reached.straight (closed : p.code.closed) (run : Reached p m) : m.store.Straight := by
  induction run with
  | load mode market library =>
    refine (load_follows (new_sound mode market library) closed).store.straight ⟨rfl, fun i h here => ?_⟩
    cases here
  | equip run plain told ih => exact ih
  | step run ih =>
    obtain ⟨sound, program⟩ := run.sound closed
    exact (step_follows sound (program ▸ closed)).store.straight ih

end Machine

namespace Machine

variable {nodes : List Code} {ids : List Nat} {m m' m₀ : Machine} {p : Program} {inLoop : Bool} {s : Store} {bar : Int}

/-- The machines in which code of a script is evaluated: at the start of a bar, after other code of the script or after
    what leaves the registers alone, and in a loop whose counter was moved on. -/
inductive During (p : Program) (nodes : List Code) : Machine → Prop where
  | start {m : Machine} (run : Reached p m) : During p nodes m
  | after {m : Machine} (before : During p nodes m) {c : Code} (part : p.Has nodes c) (inLoop : Bool) :
    During p nodes (leaves (eval { mutable := p.mutable, inLoop } c) m)
  | aside {m m' : Machine} (before : During p nodes m) (quiet : m.Quiet m') : During p nodes m'
  | count {m : Machine} (before : During p nodes m) {line : Line} {id : Nat} {name : String} {e : Code}
    (part : p.Has nodes (.define line id name e)) {counter : Value} (held : m.holds (some id) = some counter)
    (given : counter ≠ .absent) (up : Bool) (scope : Scope) :
    During p nodes (leaves (do setRegister scope (.define line id name e) (← advance up counter)) m)

structure Orderly (p : Program) (nodes : List Code) (m : Machine) : Prop where
  sound : m.Sound fun _ => False
  straight : m.store.Straight
  allotted : m.Allotted nodes p.mutable

theorem Orderly.follows (orderly : m.Orderly p nodes) (follows : m.Follows (fun _ => False) m')
    (tends : Tends nodes p.mutable m m') : m'.Orderly p nodes :=
  ⟨follows.sound, follows.store.straight orderly.straight, (tends orderly.allotted).allotted⟩

theorem Orderly.eval (orderly : m.Orderly p nodes) {c : Code} (part : p.Has nodes c) (inLoop : Bool) :
    (leaves (eval { mutable := p.mutable, inLoop } c) m).Orderly p nodes :=
  orderly.follows ((eval_keeps [] _ c part.closed).follows orderly.sound) (eval_tends part.calm rfl orderly.sound)

variable {counter v : Value} {e : Code} {id x : Nat} {line : Line} {name : String} {r : SeriesRef}

theorem Orderly.count (orderly : m.Orderly p nodes) (part : p.Has nodes (.define line id name e))
    (held : m.holds (some id) = some counter) (h : counter ≠ .absent) (up : Bool) (scope : Scope) :
    (leaves (do setRegister scope (.define line id name e) (← advance up counter)) m).Orderly p nodes := by
  have keeps : Keeps (fun _ => False) [counter] (do setRegister scope (.define line id name e) (← advance up counter))
      ([·]) :=
    .bind (advance_keeps up counter) fun next => setRegister_keeps scope _ next
  obtain ⟨follows, _⟩ := keeps m orderly.sound fun r mem => by
    cases List.mem_singleton.mp mem
    exact orderly.sound.registers (some id) r held
  have advances : Obeys (Tends nodes p.mutable) (advance up counter) := advance_obeys up counter
  refine orderly.follows follows fun allotted => leaves_bind (advances m allotted) fun next m₁ moved since => ?_
  rw [leaves_setRegister]
  have counted : Counted counter counter := .inl rfl
  exact count_tends part.fits.1 held (fun absent => (h absent).elim) allotted since (counted.advance moved)

theorem During.orderly (script : p.Has nodes p.code) (during : During p nodes m) : m.Orderly p nodes := by
  induction during with
  | start run =>
    obtain ⟨sound, _⟩ := run.sound script.closed
    exact ⟨sound, run.straight script.closed, run.allotted script⟩
  | after before part inLoop ih => exact ih.eval part inLoop
  | aside before quiet ih =>
    exact ih.follows (quiet.follows ih.sound) quiet.tends
  | count before part held h up scope ih => exact ih.count part held h up scope

/-- What is shown under a number: a single value, or the entries of a series and how far they are valid. -/
def showing (m : Machine) (id : Option Nat) : Option (Value ⊕ Column × Int) :=
  (m.holds id).map fun
    | .series r => .inr (m.store.column r, m.store.valid r)
    | v => .inl v

theorem showing_bound {id : Option Nat} (bound : m.Bound id r) :
    m.showing id = some (.inr (m.store.column r, m.store.valid r)) := by
  rw [showing, show m.holds id = _ from bound]
  rfl

theorem showing_congr {id : Option Nat} (same : m'.holds id = m.holds id)
    (series : ∀ r, m.Bound id r → m'.store.column r = m.store.column r ∧ m'.store.valid r = m.store.valid r) :
    m'.showing id = m.showing id := by
  rw [showing, showing, same]
  cases held : m.holds id with
  | none => rfl
  | some v =>
    cases v with
    | series r =>
      obtain ⟨column, valid⟩ := series r held
      simp only [Option.map_some, column, valid]
    | _ => rfl

theorem stored_here (straight : s.Straight) (present : r.id < s.series.size) (c : Column) (bar : Int) :
    ((s.setColumn r c).setValid r bar).column r = c ∧ ((s.setColumn r c).setValid r bar).valid r = bar := by
  constructor
  · rw [column_setValid, column_setColumn (straight.inside present)]
  · simp [Store.valid, Store.head, setValid, setColumn, present]

theorem stored_other {r' : SeriesRef} (straight : s.Straight) (present : r.id < s.series.size)
    (present' : r'.id < s.series.size) (other : r' ≠ r) (c : Column) (bar : Int) :
    ((s.setColumn r c).setValid r bar).column r' = s.column r' ∧
      ((s.setColumn r c).setValid r bar).valid r' = s.valid r' := by
  have touches : s.Touches r ((s.setColumn r c).setValid r bar) :=
    Trans.trans (setColumn_touches s c) (setValid_touches bar (s.setColumn r c))
  obtain ⟨head, column⟩ := touches.other straight present' present other.symm
  exact ⟨column, congrArg SeriesHead.valid head⟩

/-- What has become of a machine `m` after the value `v` was assigned to the definition `x`, for which the series `r`
    is kept. -/
structure Assigned (nodes : List Code) (ids : List Nat) (x : Nat) (v : Value) (r : SeriesRef) (m m' : Machine) :
    Prop where
  bound : m.Bound (some x) r
  /-- The entry at the bar is the value that was assigned. -/
  stored : ∃ bar entries, m.barNow = some bar ∧ (m.store.column r).set bar v = .ok entries ∧
    m'.showing (some x) = some (.inr (entries, bar))
  /-- What shares the series of the definition shows the same. -/
  shared : ∀ id, m.Bound id r → m'.showing id = m'.showing (some x)
  /-- All else shows what it did. -/
  other : ∀ id, ¬ m.Bound id r → m'.showing id = m.showing id
  /-- No other definition that some assignment changes shares the series. -/
  own : ∀ y ∈ ids, DefinedAt nodes y → y ≠ x → ¬ m.Bound (some y) r
  /-- Every definition that refers to this one, and that no assignment changes, shares the series. -/
  refers : ∀ line y name e, nodes[y]? = some (.define line y name e) → y ∉ ids → e.refersTo ids = some x →
    ∀ w, m.holds (some y) = some w → w ≠ .absent → m.Bound (some y) r

theorem Assigned.unchanged_iff (assigned : Assigned nodes ids x v r m m') (id : Option Nat) :
    m'.showing id = m.showing id ↔ (m.Bound id r → m'.showing (some x) = m.showing (some x)) := by
  by_cases bound : m.Bound id r
  · rw [assigned.shared id bound, showing_bound bound, ← showing_bound assigned.bound]
    exact ⟨fun same _ => same, fun same => same bound⟩
  · exact ⟨fun _ here => (bound here).elim, fun _ => assigned.other id bound⟩

theorem Orderly.assigned (orderly : m.Orderly p nodes) (fit : (define line x name e).fits nodes)
    (own : x ∈ p.mutable) (stored : outcome (setRegisterValue (.define line x name e) v) m = (.ok (), m')) :
    ∃ r, Assigned nodes p.mutable x v r m m' := by
  obtain ⟨c, r, entries, running, bound, set, left⟩ := setRegisterValue_eq_ok stored
  have kept (id : Option Nat) : m'.holds id = m.holds id := by
    rw [left]
    rfl
  have store : m'.store = (m.store.setColumn r entries).setValid r c.bar := by rw [left]
  have defined : DefinedAt nodes x := ⟨line, name, e, fit.1⟩
  have present (id : Option Nat) (r' : SeriesRef) (bound : m.Bound id r') : r'.id < m.store.series.size :=
    (orderly.sound.registers id r' bound).present
  have here := present _ r bound
  obtain ⟨column, valid⟩ := stored_here orderly.straight here entries c.bar
  have shown (id : Option Nat) (bound : m.Bound id r) : m'.showing id = some (.inr (entries, c.bar)) := by
    rw [showing_bound ((kept id).trans bound), store, column, valid]
  refine ⟨r, bound, ⟨c.bar, entries, ?_, set, shown _ bound⟩, fun id shares => ?_, fun id apart => ?_, ?_, ?_⟩
  · rw [barNow, running]
    rfl
  · exact (shown id shares).trans (shown _ bound).symm
  · refine showing_congr (kept id) fun r' bound' => ?_
    have other : r' ≠ r := by
      rintro rfl
      exact apart bound'
    rw [store]
    exact stored_other orderly.straight here (present id r' bound') other entries c.bar
  · intro y mem defined' other shares
    exact other (orderly.allotted.apart y mem defined' x own defined r shares bound)
  · intro line' y name' d known fixed goes w held h
    rw [← refersTo_fixed fixed line' name'] at goes
    obtain ⟨r', rfl, bound'⟩ := orderly.allotted.refers known goes own defined w held h
    cases bound'.symm.trans bound
    exact held

/-- What has become of a machine `m` after a definition `y` that refers to the definition `x` was evaluated. -/
structure DefinedAs (ids : List Nat) (x y : Nat) (m m' : Machine) : Prop where
  /-- If no assignment changes it, it has the series of the other one. -/
  shares : y ∉ ids → ∃ r, m'.Bound (some y) r ∧ m'.Bound (some x) r
  /-- Else it has a series of its own. -/
  own : y ∈ ids → ∃ r, m'.Bound (some y) r ∧ ¬ m'.Bound (some x) r
  /-- A series that is new has no entry yet. -/
  unknown : y ∈ ids → (∀ r, ¬ m.Bound (some y) r) → ∀ r, m'.Bound (some y) r → m'.store.valid r = -1
  /-- One that was there takes the entry that the other one has at the bar. -/
  taken : y ∈ ids → ∀ r bar, m.Bound (some y) r → m.barNow = some bar → m.store.valid r < bar →
    ∃ (r' : SeriesRef) (w : Value) (c : Column), m'.Bound (some x) r' ∧ (m'.store.column r').get bar = .ok w ∧
      c.set bar w = .ok (m'.store.column r) ∧ m'.store.valid r = bar

theorem unknown_valid {n : Nat} (made : outcome (onStore (SeriesRef.unknown n v)) m = (.ok r, m')) :
    m'.store.valid r = -1 := by
  have added := onStore_added (SeriesRef.unknown_builds n v) made
  obtain ⟨s', found, rfl⟩ := onStore_eq_ok made
  obtain ⟨r', s, _, found⟩ := outcome_bind_eq_ok found
  cases found
  have present : r.id < s.series.size := by simpa [setValid] using added.present
  simp [Store.valid, Store.head, setValid, present]

theorem now_series {w : Value} (at' : m.barNow = some bar)
    (read : outcome (now (.series r)) m = (.ok w, m)) : (m.store.column r).get bar = .ok w := by
  obtain ⟨i, asked, read⟩ := bar_reads.bind_eq_ok read
  cases at'.symm.trans (bar_eq_ok asked)
  obtain ⟨s', found, _⟩ := onStore_eq_ok read
  rw [SeriesRef.outcome_get] at found
  exact congrArg Prod.fst found

section

variable {y : Nat} (orderly : m.Orderly p nodes) (part : p.Has nodes (.define line y name e))
  (goes : e.refersTo p.mutable = some x)

include orderly part goes

theorem Orderly.renewed (own : y ∈ p.mutable) (bound : m.Bound (some y) r)
    (here : m.barNow = some bar) {w : Value} {m₁ : Machine}
    (evaluated : outcome (Machine.eval { mutable := p.mutable, inLoop } e) m = (.ok v, m₁))
    (read : outcome (now v) m₁ = (.ok w, m₁))
    (stored : outcome (setRegisterValue (.define line y name e) w) m₁ = (.ok (), m')) :
    ∃ (r' : SeriesRef) (w : Value) (c : Column), m'.Bound (some x) r' ∧ (m'.store.column r').get bar = .ok w ∧
      c.set bar w = .ok (m'.store.column r) ∧ m'.store.valid r = bar := by
  have part' := part.part (.head _)
  have after := orderly.eval part' inLoop
  have alone := eval_alone { mutable := p.mutable, inLoop } (show (define line y name e).id? = some y from rfl)
    part.fits.2 m
  have tends : TendsTo nodes p.mutable m (leaves (Machine.eval { mutable := p.mutable, inLoop } e) m) :=
    eval_tends part'.calm rfl orderly.sound orderly.allotted
  obtain ⟨r', rfl, boundX⟩ := eval_refers part'.calm rfl m orderly.sound orderly.allotted x goes v m₁ evaluated
  rw [leaves, evaluated] at tends after alone
  have boundY : m₁.Bound (some y) r := alone.trans bound
  obtain ⟨c, r₁, entries, running, bound₁, set, rfl⟩ := setRegisterValue_eq_ok stored
  cases bound₁.symm.trans boundY
  have here₁ : m₁.barNow = some c.bar := by
    rw [barNow, running]
    rfl
  cases here₁.symm.trans (tends.bar.trans here)
  have entry := now_series here₁ read
  obtain ⟨mem, defined⟩ := refersTo_eq_some e part'.fits goes
  have other : r' ≠ r := by
    rintro rfl
    have same := after.allotted.apart x mem defined y own ⟨line, name, e, part.fits.1⟩ r' boundX boundY
    exact Nat.ne_of_lt (refersTo_lt part.fits.2 goes) same
  have present (id : Option Nat) (r : SeriesRef) (bound : m₁.Bound id r) : r.id < m₁.store.series.size :=
    (after.sound.registers id r bound).present
  obtain ⟨column, valid⟩ := stored_here after.straight (present _ r boundY) entries c.bar
  obtain ⟨column', _⟩ := stored_other after.straight (present _ r boundY) (present _ r' boundX) other entries c.bar
  refine ⟨r', w, m₁.store.column r, boundX, ?_, ?_, valid⟩
  · exact (congrArg (Column.get · c.bar) column').trans entry
  · exact set.trans (congrArg Except.ok column.symm)

theorem Orderly.definedAs
    (done : outcome (Machine.eval { mutable := p.mutable, inLoop } (.define line y name e)) m = (.ok v, m')) :
    DefinedAs p.mutable x y m m' := by
  obtain ⟨known, inner⟩ := part.fits
  have after := orderly.eval part inLoop
  rw [leaves, done] at after
  have gives : ∀ y, (Code.define line _ name e).refersTo p.mutable = some y → ∀ v m',
      outcome (Machine.eval { mutable := p.mutable, inLoop } (.define line _ name e)) m = (.ok v, m') →
      ∃ r, v = .series r ∧ m'.Bound (some y) r :=
    eval_refers part.calm rfl m orderly.sound orderly.allotted
  obtain ⟨mem, defined⟩ := refersTo_eq_some e (part.part (.head _)).fits goes
  have lower := Nat.ne_of_lt (refersTo_lt inner goes)
  have held : m'.holds (some y) = some v := definition_holds (eval_alone _ rfl inner) done
  refine ⟨fun fixed => ?_, fun own => ?_, fun own empty r bound => ?_, fun own r bar bound now old => ?_⟩
  · rw [← refersTo_fixed fixed line name] at goes
    obtain ⟨r, rfl, bound⟩ := gives x goes v m' done
    exact ⟨r, held, bound⟩
  · obtain ⟨r, _, bound⟩ := gives y (refersTo_own own line name e) v m' done
    exact ⟨r, bound, fun here => lower (after.allotted.apart x mem defined y own ⟨line, name, e, known⟩ r here bound)⟩
  · cases definition_cases done with
    | alloc _ _ _ kept =>
      obtain ⟨n, start, r', m₁, made, rfl, kept⟩ := allocRegister_eq_ok kept
      obtain ⟨_, rfl⟩ := setRegister_eq_ok kept
      cases held.symm.trans bound
      exact (unknown_valid made : m₁.store.valid r = -1)
    | keep _ fixed => exact (fixed own).elim
    | renew bound | ready bound => exact (empty _ bound).elim
    | single _ h plain =>
      obtain ⟨r', rfl, _⟩ := gives y (refersTo_own own line name e) v m done
      exact (plain r' rfl).elim
  · cases definition_cases done with
    | alloc empty | keep empty => exact (empty r bound).elim
    | renew _ _ _ evaluated read stored => exact orderly.renewed part goes own bound now evaluated read stored
    | ready bound' now' known' =>
      cases bound.symm.trans bound'
      cases now.symm.trans now'
      omega
    | single held' _ plain =>
      cases bound.symm.trans held'
      exact (plain r rfl).elim

end

theorem assign_eq_ok {scope : Scope} {target : Code}
    (done : outcome (Machine.eval scope (.assign line name target e)) m = (.ok v, m')) :
    ∃ m₁ w, outcome (do now (← Machine.eval scope e)) m = (.ok w, m₁) ∧
      m₁ = leaves (Machine.eval scope e) m ∧ outcome (setRegisterValue target w) m₁ = (.ok (), m') := by
  obtain ⟨u, m₁, evaluated, done⟩ := outcome_bind_eq_ok done
  obtain ⟨w, read, done⟩ := (now_reads u).bind_eq_ok done
  obtain ⟨_, m₂, stored, done⟩ := outcome_bind_eq_ok done
  cases done
  refine ⟨m₁, w, ?_, ?_, stored⟩
  · rw [bind_ok evaluated, read]
  · rw [leaves, evaluated]

/-- Let `x := e` be executed anywhere in the run of a script. After `e` was evaluated, the assignment changes just what
    keeps the series of `x`. This is no other variable that some assignment changes, and every variable that was defined
    as `x` and is never assigned to. A variable that was defined as `x` and is assigned to elsewhere has a series of its
    own with the entry of `x`, but for its first bar, when it has none. -/
theorem assign_changes {text : String} {line lineX : Line} {name nameX : String} {x : Nat} {d e : Code} {inLoop : Bool}
    {v : Value} (compiled : compile text = .ok p) (numbered : p.code.fits nodes) (during : During p nodes m)
    (part : p.Has nodes (.assign line name (.define lineX x nameX d) e))
    (done : outcome (eval { mutable := p.mutable, inLoop } (.assign line name (.define lineX x nameX d) e)) m =
      (.ok v, m')) :
    (∃ m₁ w r, outcome (do now (← eval { mutable := p.mutable, inLoop } e)) m = (.ok w, m₁) ∧
      Assigned nodes p.mutable x w r m₁ m' ∧
      ∀ id, m'.showing id = m₁.showing id ↔ (m₁.Bound id r → m'.showing (some x) = m₁.showing (some x))) ∧
    ∀ {k k' : Machine} {line : Line} {y : Nat} {name : String} {d : Code} {inLoop : Bool} {v : Value},
      During p nodes k → p.Has nodes (.define line y name d) → d.refersTo p.mutable = some x →
      outcome (eval { mutable := p.mutable, inLoop } (.define line y name d)) k = (.ok v, k') →
      DefinedAs p.mutable x y k k' := by
  have script : p.Has nodes p.code := ⟨compile_closed compiled, numbered, compile_marked compiled⟩
  constructor
  · obtain ⟨m₁, w, evaluated, rfl, stored⟩ := assign_eq_ok done
    have after := (during.orderly script).eval (part.part (.head _)) inLoop
    obtain ⟨⟨x', own, number⟩, _⟩ := part.marked
    cases number
    obtain ⟨r, assigned⟩ := after.assigned part.fits.1 own stored
    exact ⟨_, w, r, evaluated, assigned, assigned.unchanged_iff⟩
  · intro k k' line y name d inLoop v during part goes done
    exact (during.orderly script).definedAs part goes done

/-- A script in which a variable is defined as another one, before this is assigned to. -/
def sharedText : String :=
  "x = 0.0\ny = x\nx := close\n"

def startOf (m : Machine) (id : Nat) : Option Float :=
  match m.showing (some id) with
  | some (.inr (entries, _)) => entries.floatAt 0
  | _ => none

/-- Whether `y` goes from zero to one in a script such as `sharedText`, with the assignment to `x`. -/
def changesOther (p : Program) (m₀ : Machine) : Bool :=
  match p.code with
  | .block _ [first, .define ly y ny d, .assign la na (.define lx x nx dx) e] =>
    let scope : Scope := { mutable := p.mutable }
    match outcome (eval scope (.define ly y ny d)) (leaves (eval scope first) m₀) with
    | (.ok _, m) =>
      match outcome (eval scope (.assign la na (.define lx x nx dx) e)) m with
      | (.ok _, m') => decide (d.refersTo p.mutable = some x ∧ m.startOf y = some 0.0 ∧ m'.startOf y = some 1.0)
      | _ => false
    | _ => false
  | _ => false

/-- The first bar of a script such as `sharedText`: `y` is defined as `x`, from the machine `k` to `m`, and there is an
    assignment to `x`, from `m` to `m'`. -/
structure ChangesOther (p : Program) (m₀ k m m' : Machine) (first d dx e : Code) (lx : Line) (nx : String) (x y : Nat) :
    Prop where
  code : ∃ l ly la ny na, p.code = .block l [first, .define ly y ny d, .assign la na (.define lx x nx dx) e] ∧
    (∃ u, outcome (eval { mutable := p.mutable } (.define ly y ny d)) k = (.ok u, m)) ∧
    ∃ v, outcome (eval { mutable := p.mutable } (.assign la na (.define lx x nx dx) e)) m = (.ok v, m')
  defined : k = leaves (eval { mutable := p.mutable } first) m₀
  refers : d.refersTo p.mutable = some x
  before : m.startOf y = some 0.0
  after : m'.startOf y = some 1.0

theorem changesOther_spec (changes : changesOther p m₀) :
    ∃ k m m' first d dx e lx nx x y, ChangesOther p m₀ k m m' first d dx e lx nx x y := by
  unfold changesOther at changes
  split at changes
  next l first ly y ny d la na lx x nx dx e code =>
    dsimp only at changes
    split at changes
    next u m defined =>
      split at changes
      next v m' assigned =>
        obtain ⟨refers, before, after⟩ := of_decide_eq_true changes
        exact ⟨_, m, m', first, d, dx, e, lx, nx, x, y, ⟨l, ly, la, ny, na, code, ⟨u, defined⟩, v, assigned⟩, rfl,
          refers, before, after⟩
      next => cases changes
    next => cases changes
  next => cases changes

theorem sharedText_changes : ∃ p m₀, compile sharedText = .ok p ∧ Reached p m₀ ∧
    ∃ k m m' first d dx e lx nx x y, ChangesOther p m₀ k m m' first d dx e lx nx x y := by
  have run : (ran sharedText (.flat [1.0]) 0).any (fun (p, m) => changesOther p m) := by decide +kernel
  obtain ⟨⟨p, m₀⟩, h, changes⟩ := (Option.any_eq_true _ _).mp run
  obtain ⟨compiled, run⟩ := ran_reached h
  exact ⟨p, m₀, compiled, run, changesOther_spec changes⟩

/-- The assignment of `sharedText` at its first bar, and the definition before it. -/
theorem assign_changes_sharedText : ∃ p nodes k m m' e x y, compile sharedText = .ok p ∧ p.code.fits nodes ∧
    During p nodes m ∧ DefinedAs p.mutable x y k m ∧ ∃ m₁ w r,
      outcome (do now (← eval { mutable := p.mutable } e)) m = (.ok w, m₁) ∧ Assigned nodes p.mutable x w r m₁ m' := by
  obtain ⟨p, m₀, compiled, run, k, m, m', first, d, dx, e, lx, nx, x, y, other⟩ := sharedText_changes
  obtain ⟨l, ly, la, ny, na, code, ⟨u, defined⟩, v, assigned⟩ := other.code
  obtain ⟨nodes, fit⟩ := compile_fits compiled
  have script : p.Has nodes p.code := ⟨compile_closed compiled, fit, compile_marked compiled⟩
  rw [code] at script
  have defines : p.Has nodes (.define ly y ny d) := script.part (.tail _ (.head _))
  have begun : During p nodes k := other.defined ▸ .after (.start run) (script.part (.head _)) false
  have during : During p nodes m := by
    have after := begun.after defines false
    rwa [leaves, defined] at after
  obtain ⟨⟨m₁, w, r, evaluated, changed, _⟩, definedAs⟩ :=
    assign_changes compiled fit during (script.part (.tail _ (.tail _ (.head _)))) assigned
  exact ⟨p, nodes, k, m, m', e, x, y, compiled, fit, during, definedAs begun defines other.refers defined, m₁, w, r,
    evaluated, changed⟩

/-- At the first bar of `sharedText` the assignment to `x` changes what `y` shows, from zero to one. -/
theorem assignment_reaches_other : ∃ p m₀, compile sharedText = .ok p ∧ Reached p m₀ ∧
    ∃ k m m' first d dx e lx nx x y, ChangesOther p m₀ k m m' first d dx e lx nx x y ∧ x ≠ y ∧
      m'.showing (some y) ≠ m.showing (some y) := by
  obtain ⟨p, m₀, compiled, run, k, m, m', first, d, dx, e, lx, nx, x, y, other⟩ := sharedText_changes
  obtain ⟨nodes, fit⟩ := compile_fits compiled
  obtain ⟨l, ly, la, ny, na, code, _⟩ := other.code
  rw [code] at fit
  refine ⟨p, m₀, compiled, run, k, m, m', first, d, dx, e, lx, nx, x, y, other, ?_, fun same => ?_⟩
  · exact Nat.ne_of_lt (Code.refersTo_lt fit.2.1.2 other.refers)
  · have equal : m'.startOf y = m.startOf y := by rw [startOf, same, startOf]
    rw [other.before, other.after] at equal
    exact absurd equal (by decide)

end Machine

end PineEngine
