import PineEngine.Proofs.Assigning
import PineEngine.Proofs.Defining

/-! # The occasions of changes

An evaluation changes a machine in a few ways, and each of them on an occasion that tells which series it can be about.
A definition that has nothing yet keeps a value; a choice fills and keeps a series that it has just made; an entry is
stored in a series that is not up to date, or that is assigned to; a loop counts with a single cell. A relation that
permits each change on its occasion (`Machine.Permits`) is respected by the evaluation of all code
(`Machine.Permits.eval`).
-/

namespace PineEngine.Script.Code

mutual

def hasLoop : Code → Bool
  | .block _ items | .list _ items | .anyOf _ items | .allOf _ items => anyHasLoop items
  | .literal _ _ => false
  | .binary _ _ a b => a.hasLoop || b.hasLoop
  | .unary _ _ a => a.hasLoop
  | .builtin _ _ _ _ => false
  | .variable _ _ target => target.hasLoop
  | .call _ _ _ args named => anyHasLoop args || anyNamedHasLoop named
  | .choice _ _ c y none _ => c.hasLoop || y.hasLoop
  | .choice _ _ c y (some e) _ => c.hasLoop || y.hasLoop || e.hasLoop
  | .loop _ _ _ _ _ _ _ => true
  | .define _ _ _ e => e.hasLoop
  | .assign _ _ _ e => e.hasLoop
  | .inlined _ _ args body => anyHasLoop args || body.hasLoop

def anyHasLoop : List Code → Bool
  | [] => false
  | c :: rest => c.hasLoop || anyHasLoop rest

def anyNamedHasLoop : List (String × Code) → Bool
  | [] => false
  | (_, c) :: rest => c.hasLoop || anyNamedHasLoop rest

end

theorem anyHasLoop_iff (items : List Code) : anyHasLoop items ↔ ∃ c ∈ items, c.hasLoop := by
  induction items with
  | nil => simp [anyHasLoop]
  | cons c rest ih => simp [anyHasLoop, ih]

theorem anyNamedHasLoop_iff (named : List (String × Code)) :
    anyNamedHasLoop named ↔ ∃ c ∈ named.map (·.2), c.hasLoop := by
  induction named with
  | nil => simp [anyNamedHasLoop]
  | cons entry rest ih => simp [anyNamedHasLoop, ih]

theorem hasLoop_part {c d : Code} (mem : d ∈ c.evaluated) (loops : d.hasLoop) : c.hasLoop := by
  cases c with
  | choice line id c y no inline => cases no <;> grind [Code.hasLoop, evaluated, children]
  | _ => grind [Code.hasLoop, evaluated, children, anyHasLoop_iff, anyNamedHasLoop_iff]

end PineEngine.Script.Code

namespace PineEngine

open Script Builtin Computation Store

namespace Store

/-- At most the entries and the valid index of one series have changed. -/
structure Touches (r : SeriesRef) (s s' : Store) : Prop where
  straight : s.Straight → s'.Straight
  size : s'.series.size = s.series.size
  heads : ∀ i, i ≠ r.id → s'.series[i]? = s.series[i]?
  own : (s'.head r).column = (s.head r).column
  columns : ∀ k, k ≠ (s.head r).column → s'.columns[k]? = s.columns[k]?

variable {r : SeriesRef}

instance : Std.Refl (Touches r) :=
  ⟨fun _ => ⟨id, rfl, fun _ _ => rfl, rfl, fun _ _ => rfl⟩⟩

instance : Trans (Touches r) (Touches r) (Touches r) :=
  ⟨fun first second => ⟨second.straight ∘ first.straight, second.size.trans first.size,
    fun i other => (second.heads i other).trans (first.heads i other), second.own.trans first.own,
    fun k apart => (second.columns k (first.own ▸ apart)).trans (first.columns k apart)⟩⟩

theorem setColumn_touches (s : Store) (c : Column) : s.Touches r (s.setColumn r c) :=
  ⟨fun straight => straight.setColumn r c, rfl, fun _ _ => rfl, rfl,
    fun _ apart => Array.getElem?_setIfInBounds_ne apart.symm⟩

theorem setValid_touches (valid : Int) : Obeys (Touches r) (r.setValid valid) :=
  fun s => ⟨fun straight => straight.setValid r valid, Array.size_setIfInBounds,
    fun _ other => Array.getElem?_setIfInBounds_ne other.symm, head_column_setValid s r r valid, fun _ _ => rfl⟩

theorem update_touches (f : Column → Except Fault Column) : Obeys (Touches r) (r.update f) :=
  SeriesRef.update_obeys fun s c _ => setColumn_touches s c

theorem set_touches (i : Int) (v : Value) : Obeys (Touches r) (r.set i v) :=
  update_touches (·.set i v)

theorem replaceUnless_touches (cond other : SeriesRef) (n : Nat) : Obeys (Touches r) (r.replaceUnless cond other n) :=
  SeriesRef.replaceUnless_obeys set_touches cond other n

theorem Touches.other {r' : SeriesRef} {s s' : Store} (touches : s.Touches r' s') (straight : s.Straight)
    (present : r.id < s.series.size) (present' : r'.id < s.series.size) (other : r' ≠ r) :
    s'.head r = s.head r ∧ s'.column r = s.column r := by
  have apart : r.id ≠ r'.id := fun same => other (congrArg SeriesRef.mk same).symm
  have head : s'.head r = s.head r := by rw [Store.head, touches.heads _ apart, Store.head]
  refine ⟨head, ?_⟩
  rw [column, head, touches.columns, column]
  rw [straight.head_column present, straight.head_column present']
  exact apart

end Store

namespace Machine

variable {α β : Type} {m m' m₀ : Machine} {r : SeriesRef} {v : Value}

theorem onStore_added {x : SeriesM SeriesRef} (builds : Builds x) (made : outcome (onStore x) m = (.ok r, m')) :
    m.store.Added m'.store r := by
  obtain ⟨s', found, rfl⟩ := onStore_eq_ok made
  have added := builds m.store m.store (Std.Refl.refl _)
  rw [found] at added
  exact added

theorem copied_added {n : Nat} (made : outcome (copied n v) m = (.ok r, m')) : m.store.Added m'.store r := by
  unfold copied at made
  split at made
  · exact onStore_added (SeriesRef.copy_builds _) made
  · exact onStore_added (SeriesRef.replicate_builds n v) made

theorem started_added {c : SeriesRef} (made : outcome (started c v) m = (.ok r, m')) : m.store.Added m'.store r := by
  unfold started at made
  split at made
  · exact onStore_added (SeriesRef.toMutable_builds _) made
  · obtain ⟨n, _, made⟩ := (onStore_reads (SeriesRef.size_reads c)).bind_eq_ok made
    exact onStore_added (SeriesRef.mutable_builds v n) made

/-- A comparison with a series adds a series to the store. If it counts as true or false, the series was a
    single cell. -/
theorem single_of_truth {op : CompareOp} {b : Value} {t : Bool} {m'' : Machine}
    (compared : outcome (Machine.compare op (.series r) b) m = (.ok v, m'))
    (asked : outcome (truth v) m' = (.ok t, m'')) : (m.store.column r).Single := by
  obtain ⟨r', m₁, combined, h⟩ := outcome_bind_eq_ok compared
  cases h
  obtain ⟨s', answered, stored⟩ := onStore_eq_ok combined
  obtain ⟨x, y, c, valid, origin, left, _, computed, added⟩ := SeriesRef.combine_eq_ok answered
  cases left
  have new : r' = (m.store.alloc c valid origin).1 := congrArg Prod.fst added
  have store : m'.store = (m.store.alloc c valid origin).2 := stored ▸ congrArg Prod.snd added
  obtain ⟨w, cells, _⟩ := truth_eq_ok asked
  rw [store, new, column_alloc] at cells
  obtain ⟨ps, rowLen, met, _, size⟩ := Column.compare_shape computed
  refine Column.single_of_pairs met (size.symm.trans ?_)
  rw [Column.size, ← Cells.length_toList, cells]
  rfl

/-- Code that names no series of its own, with its nodes among given ones, that assigns only to definitions with the
    given numbers. `counts` tells whether it may have loops. -/
structure Calm (nodes : List Code) (ids : List Nat) (counts : Prop) (code : Code) : Prop where
  closed : code.closed
  fits : code.fits nodes
  marked : code.marked ids
  counting : code.hasLoop → counts

/-- A series that was made on the way from a machine to another one, and that at most was filled of late. -/
inductive Made (R : Machine → Machine → Prop) (m₀ m : Machine) (r : SeriesRef) : Prop where
  | of {m₁ m₂ m₃ : Machine} (before : R m₀ m₁) (quiet : m₁.Quiet m₂) (added : m₁.store.Added m₂.store r)
    (since : R m₂ m₃) (context : m.context = m₃.context) (filled : m₃.store.Touches r m.store)

/-- Why an entry is stored in the series that is kept under a number: at first it was not up to date, it is not filled
    yet, or it is assigned to. -/
inductive Stale (ids : List Nat) (m₀ m : Machine) (id : Option Nat) (r : SeriesRef) : Prop where
  | late {bar : Int} (now : m₀.barNow = some bar) (old : m₀.store.valid r < bar)
  | unfilled (unfilled : m.store.filled r = false)
  | assigned {x : Nat} (mem : x ∈ ids) (number : id = some x)

/-- What a loop counts with, if it started with a value: that very series, or single values. -/
def Counted (first v : Value) : Prop :=
  v = first ∨ (∀ r, v ≠ .series r) ∧ (∀ r, first ≠ .series r) ∧ first ≠ .absent

theorem advance_series {up : Bool} (h : outcome (advance up (.series r)) m = (.ok v, m')) : v = .series r := by
  obtain ⟨_, _, _, h⟩ := outcome_bind_eq_ok h
  cases h
  rfl

theorem advance_ne {up : Bool} {counter next : Value} (other : counter ≠ .series r)
    (moved : outcome (advance up counter) m = (.ok next, m')) : next ≠ .series r := by
  cases counter with
  | series r' =>
    rw [advance_series moved]
    exact other
  | _ =>
    rintro rfl
    have counted : outcome (liftM (Value.arith _ _ _) : MachineM Value) m = _ := moved
    rw [outcome_liftM] at counted
    exact Value.arith_ne_series _ _ _ r (Prod.mk.inj counted).1

theorem Counted.advance {up : Bool} {first counter next : Value} (counted : Counted first counter)
    (moved : outcome (Machine.advance up counter) m = (.ok next, m')) : Counted first next := by
  cases counter with
  | series r =>
    rw [advance_series moved]
    exact counted
  | absent => cases up <;> cases moved
  | _ =>
    refine .inr ⟨fun r => advance_ne (by simp) moved, ?_⟩
    rcases counted with rfl | ⟨_, rest⟩
    · exact ⟨by simp, by simp⟩
    · exact rest

/-- Relations that permit what the evaluation of code changes, each on its occasion. -/
structure Permits (nodes : List Code) (ids : List Nat) (counts : Prop) (R : Machine → Machine → Prop) : Prop where
  refl (m : Machine) : R m m
  trans {m m' m'' : Machine} (first : R m m') (second : R m' m'') : R m m''
  quiet {m m' : Machine} (quiet : m.Quiet m') : R m m'
  /-- At the first bar a built-in variable keeps a series of which no more is known. -/
  builtin {m : Machine} {line : Line} {id : Nat} {name : String} {v : Variable} {r : SeriesRef}
    (calm : Calm nodes ids counts (.builtin line id name v)) (first : m.barNow = some 0)
    (start : m.store.valid r = 0) : R m (m.put (.builtin line id name v) (.series r))
  /-- A definition that no assignment changes, and that has nothing yet, keeps the value of its expression. -/
  define {m m' : Machine} {line : Line} {id : Nat} {name : String} {e : Code} {scope : Scope} {v : Value}
    (calm : Calm nodes ids counts (.define line id name e)) (own : scope.mutable = ids) (fixed : id ∉ ids)
    (sound : m.Sound fun _ => False) (before : R m m') (evaluated : outcome (eval scope e) m = (.ok v, m'))
    (free : ∀ r, ¬ m'.Bound (some id) r) : R m (m'.put (.define line id name e) v)
  /-- Another definition that has nothing yet keeps a new series of numbers. -/
  alloc {m : Machine} {line : Line} {id : Nat} {name : String} {e : Code} {c : Column}
    (calm : Calm nodes ids counts (.define line id name e)) (own : id ∈ ids) (free : ∀ r, ¬ m.Bound (some id) r)
    (numeric : c.Numeric m.size) :
    R m (put { m with store := (m.store.alloc c (-1) .plain).2 } (.define line id name e)
      (.series ⟨m.store.series.size⟩))
  /-- A choice that has nothing yet keeps a series that it has made. -/
  choose {m m' : Machine} {line : Line} {id : Nat} {c yes : Code} {no : Option Code} {inline : Bool} {r : SeriesRef}
    (calm : Calm nodes ids counts (.choice line id c yes no inline)) (free : ∀ r, ¬ m.Bound (some id) r)
    (before : R m m') (made : Made R m m' r) : R m (m'.put (.choice line id c yes no inline) (.series r))
  fill {m m' : Machine} {s : Store} {r : SeriesRef} (before : R m m') (made : Made R m m' r)
    (present : r.id < m'.store.series.size) (touches : m'.store.Touches r s) (revises : m'.store.Revises s) :
    R m { m' with store := s }
  write {m m' : Machine} {id : Option Nat} {r : SeriesRef} {bar : Int} (before : R m m')
    (present : r.id < m'.store.series.size) (now : m'.barNow = some bar) (stale : Stale ids m m' id r)
    (bound : m'.Bound id r) (v : Value) : R m (leaves (storeAt r bar v) m')
  /-- A loop keeps what it counts with, and in the end what it started with. -/
  count {m m' : Machine} {line : Line} {id : Nat} {name : String} {e : Code} {first v : Value}
    (calm : Calm nodes ids counts (.define line id name e)) (looping : counts)
    (held : m.holds (some id) = some first) (given : first = .absent → id ∉ ids)
    (single : ∀ r, first = .series r → ∃ m₁, R m m₁ ∧ (m₁.store.column r).Single) (before : R m m')
    (counted : Counted first v) : R m (m'.put (.define line id name e) v)
  advance {m : Machine} {r : SeriesRef} (looping : counts) (present : r.id < m.store.series.size)
    (single : (m.store.column r).Single) (up : Bool) : R m (leaves (advance up (.series r)) m)

variable {nodes : List Code} {ids : List Nat} {counts : Prop} {R : Machine → Machine → Prop}

theorem Calm.part {c d : Code} (calm : Calm nodes ids counts c) (mem : d ∈ c.evaluated) : Calm nodes ids counts d where
  closed := Code.closed_part calm.closed mem
  fits := Code.fits_child calm.fits (Code.child_of_evaluated mem)
  marked := Code.marked_part calm.marked mem
  counting loops := calm.counting (Code.hasLoop_part mem loops)

theorem Calm.alone {c d : Code} {id : Nat} (calm : Calm nodes ids counts c) (numbered : c.id? = some id)
    (mem : d ∈ c.evaluated) (scope : Scope) : Alone c (Machine.eval scope d) :=
  eval_alone scope numbered ((Code.fits_numbered calm.fits numbered).2 d (Code.child_of_evaluated mem))

theorem Made.onStore (made : Made R m₀ m r) {x : SeriesM α} (touches : Obeys (Touches r) x) {a : α}
    (done : outcome (Machine.onStore x) m = (.ok a, m')) : Made R m₀ m' r := by
  obtain ⟨before, quiet, added, since, context, filled⟩ := made
  obtain ⟨s, stored, rfl⟩ := onStore_eq_ok done
  exact ⟨before, quiet, added, since, context, Trans.trans filled (touches.ended stored)⟩

/-- A sound machine that a sound machine `m₀` may have become, with given values in its store. -/
structure Guard (R : Machine → Machine → Prop) (m₀ : Machine) (given : List Value) (m : Machine) : Prop where
  start : m₀.Sound fun _ => False
  before : R m₀ m
  sound : m.Sound fun _ => False
  opens : ∀ r, .series r ∈ given → m.store.Open (fun _ => False) r

/-- From a machine that `m₀` may have become, a computation comes to such a machine again, and gives values that are in
    the store. -/
def Tracks (R : Machine → Machine → Prop) (m₀ : Machine) (given : List Value) (x : MachineM α)
    (gives : α → List Value) (m : Machine) : Prop :=
  Guard R m₀ given m → R m₀ (leaves x m) ∧ m.Follows (fun _ => False) (leaves x m) ∧
    ∀ a m', outcome x m = (.ok a, m') → ∀ r, .series r ∈ gives a → m'.store.Open (fun _ => False) r

variable {given : List Value} {x : MachineM α} {f : α → MachineM β} {gives : α → List Value} {gives' : β → List Value}

namespace Tracks

theorem of_keeps (keeps : Keeps (fun _ => False) given x gives) (after : Guard R m₀ given m → R m₀ (leaves x m)) :
    Tracks R m₀ given x gives m := by
  intro guard
  obtain ⟨follows, gave⟩ := keeps m guard.sound guard.opens
  refine ⟨after guard, follows, fun a m' found => ?_⟩
  rw [found] at gave
  exact gave a rfl

theorem found : Tracks R m₀ (v :: given) (pure v) ([·]) m :=
  of_keeps .found (·.before)

theorem plain (plain : ∀ r, v ≠ .series r) : Tracks R m₀ given (pure v) ([·]) m :=
  of_keeps (.plain plain) (·.before)

theorem throw (e : Fault) : Tracks R m₀ given (throw e : MachineM α) gives m :=
  of_keeps (.throw e) (·.before)

theorem mono {more : List Value} (tracks : Tracks R m₀ given x gives m)
    (mem : ∀ r, .series r ∈ given → .series r ∈ more) : Tracks R m₀ more x gives m :=
  fun guard => tracks ⟨guard.start, guard.before, guard.sound, fun r here => guard.opens r (mem r here)⟩

theorem more (tracks : Tracks R m₀ given x gives m) : Tracks R m₀ (v :: given) x gives m :=
  tracks.mono fun _ mem => List.mem_cons_of_mem _ mem

theorem bind (first : Tracks R m₀ given x gives m)
    (rest : ∀ a m', outcome x m = (.ok a, m') → Tracks R m₀ (gives a ++ given) (f a) gives' m') :
    Tracks R m₀ given (x >>= f) gives' m := by
  intro guard
  obtain ⟨after, follows, gave⟩ := first guard
  rw [leaves] at after follows ⊢
  rcases done : outcome x m with ⟨e | a, m'⟩ <;> rw [done] at after follows
  · rw [bind_error done]
    exact ⟨after, follows, fun _ _ failed => by cases failed⟩
  · rw [bind_ok done]
    obtain ⟨after', follows', gave'⟩ := rest a m' done ⟨guard.start, after, follows.sound, fun r mem => by
      rcases List.mem_append.mp mem with new | old
      · exact gave a m' done r new
      · exact (guard.opens r old).spares follows.store⟩
    exact ⟨after', follows.trans follows', gave'⟩

theorem bind_reads (keeps : Keeps (fun _ => False) given x gives) (reads : Obeys Eq x)
    (rest : ∀ a, outcome x m = (.ok a, m) → Tracks R m₀ (gives a ++ given) (f a) gives' m) :
    Tracks R m₀ given (x >>= f) gives' m := by
  have same : m = leaves x m := reads m
  refine bind (of_keeps keeps fun guard => same ▸ guard.before) fun a m' found => ?_
  cases reads.state_eq found
  exact rest a found

theorem read (reads : Obeys Eq x) (rest : ∀ a, outcome x m = (.ok a, m) → Tracks R m₀ given (f a) gives' m) :
    Tracks R m₀ given (x >>= f) gives' m :=
  have keeps : Keeps (fun _ => False) given x fun _ => [] := .of_reads reads
  bind_reads keeps reads rest

theorem outOfDate {work : MachineM Value}
    (tracks : ∀ bar, m.barNow = some bar → m.store.valid r < bar → Tracks R m (.series r :: given) work ([·]) m) :
    Tracks R m (.series r :: given) (do if ← onStore (r.outOfDate (← bar)) then work else pure (.series r)) ([·]) m := by
  refine .read bar_reads fun bar now => .read (onStore_reads (SeriesRef.outOfDate_reads r bar)) fun old asked => ?_
  split
  next out =>
    subst out
    exact tracks bar (bar_eq_ok now) (of_decide_eq_true (Except.ok.inj (congrArg Prod.fst asked)))
  next => exact found

end Tracks

section

variable (permits : Permits nodes ids counts R)

include permits

/-- What is permitted from a machine on is permitted after what led to it. -/
theorem Permits.on (tracks : Tracks R m given x gives m) : Tracks R m₀ given x gives m := by
  intro guard
  obtain ⟨after, rest⟩ := tracks ⟨guard.sound, permits.refl m, guard.sound, guard.opens⟩
  exact ⟨permits.trans guard.before after, rest⟩

theorem Permits.ended (tracks : Tracks R m given x gives m) (guard : Guard R m₀ given m) {a : α}
    (found : outcome x m = (.ok a, m')) : R m m' := by
  have after := (tracks ⟨guard.sound, permits.refl m, guard.sound, guard.opens⟩).1
  rwa [leaves, found] at after

theorem Permits.of_quiet (keeps : Keeps (fun _ => False) given x gives) (quiet : Obeys Quiet x) :
    Tracks R m₀ given x gives m :=
  .of_keeps keeps fun guard => permits.trans guard.before (permits.quiet (quiet m))

theorem Permits.of_plain (quiet : Obeys Quiet x) : Tracks R m₀ given x (fun _ => []) m :=
  permits.of_quiet (.of_plain quiet) quiet

theorem Permits.of_fill {x : SeriesM α} (made : Made R m₀ m r) (touches : Obeys (Touches r) x)
    (writes : Obeys (Writes (fun _ => False) r) x) (revises : Obeys Revises x) :
    Tracks R m₀ (.series r :: given) (onStore x) (fun _ => []) m := by
  refine .of_keeps (onStore_writes writes) fun guard => ?_
  rw [leaves, outcome_onStore]
  exact permits.fill guard.before made (guard.opens r (.head _)).present (touches m.store) (revises m.store)

theorem Permits.setRegisterValue {code : Code} (v : Value)
    (stale : ∀ r, m.Bound code.id? r → Stale ids m₀ m code.id? r) :
    Tracks R m₀ given (setRegisterValue code v) (fun _ => []) m := by
  refine .of_keeps (setRegisterValue_keeps code v) fun guard => ?_
  obtain ⟨e, failed⟩ | ⟨c, r, running, bound, same⟩ := setRegisterValue_cases code v m
  · rw [leaves, failed]
    exact guard.before
  · rw [leaves, same]
    have now : m.barNow = some c.bar := by rw [barNow, running]; rfl
    exact permits.write guard.before (guard.sound.registers _ r bound).present now (stale r bound) bound v

theorem Permits.store {code : Code} (alone : Alone code x) (bound : m.Bound code.id? r) {a : α}
    (found : outcome x m = (.ok a, m')) (stale : Stale ids m m' code.id? r) (v : Value) :
    Tracks R m (.series r :: given) (do Machine.setRegisterValue code v; pure (.series r)) ([·]) m' := by
  refine .bind (permits.setRegisterValue v fun r' here => ?_) fun _ _ _ => .found
  cases bound.symm.trans ((alone.ended found).symm.trans here)
  exact stale

variable {scope : Scope} {line : Line} {id : Nat} {name : String} {e : Code}

theorem Permits.builtinVariable {v : Variable} (calm : Calm nodes ids counts (.builtin line id name v)) :
    Tracks R m given (builtinVariable scope (.builtin line id name v) v) ([·]) m := by
  have quiet : Obeys Quiet (variableValue v) := variableValue_quiet v
  have value {given : List Value} : Tracks R m given (variableValue v) ([·]) m :=
    permits.of_quiet (variableValue_keeps (Option.isNone_iff_eq_none.mp calm.closed)) quiet
  refine .read bar_reads fun bar now => ?_
  split
  next first =>
    refine .bind value fun w m' found => ?_
    split
    next r =>
      refine .read (onStore_reads (SeriesRef.valid_reads r)) fun valid read => ?_
      split
      next start =>
        have now' : m'.barNow = some 0 := by
          rw [barNow, (quiet.ended found).context, ← eq_of_beq first]
          exact bar_eq_ok now
        obtain ⟨_, read, _⟩ := onStore_eq_ok read
        cases read
        refine .bind (.of_keeps (setRegister_keeps scope _ _) fun guard => ?_) fun _ _ _ => Tracks.found.more
        rw [leaves_setRegister]
        exact permits.trans guard.before (permits.builtin calm now' (eq_of_beq start))
      next => exact .found
    next => exact .found
  next =>
    refine .bind_reads (getRegister_keeps _) (getRegister_reads _) fun held read => ?_
    split
    next r =>
      refine Tracks.outOfDate fun bar now late => .bind value fun w m' found => Tracks.more ?_
      exact permits.store (alone_of_quiet quiet _) (getRegister_series read) found (.late now late) w
    next => exact value

theorem Permits.allocRegister (calm : Calm nodes ids counts (.define line id name e)) (own : id ∈ ids)
    (free : ∀ r, ¬ m.Bound (some id) r) (v : Value) :
    Tracks R m₀ given (Machine.allocRegister scope (.define line id name e) v) ([·]) m := by
  have keeps : Keeps (fun _ => False) given (Machine.allocRegister scope (.define line id name e) v) ([·]) :=
    .bind (.of_reads (startValue_reads v)) fun _ => .bind (.of_reads barCount_reads) fun _ =>
      .bind (.of_builds (SeriesRef.unknown_builds _ _)) fun _ => setRegister_keeps scope _ _
  refine .of_keeps keeps fun guard => ?_
  rcases found : outcome (startValue v) m with ⟨f | start, m₁⟩ <;>
    obtain rfl : m = m₁ := (startValue_reads v).ended found
  · rw [leaves, Machine.allocRegister, bind_error found]
    exact guard.before
  · obtain ⟨c, _, numeric, same⟩ := outcome_allocRegister found (.define line id name e)
    rw [leaves, same, ← leaves, leaves_setRegister]
    exact permits.trans guard.before (permits.alloc calm own free numeric)

theorem Permits.definition (calm : Calm nodes ids counts (.define line id name e)) (own : scope.mutable = ids)
    (tracks : ∀ given m, Tracks R m given (eval scope e) ([·]) m) :
    Tracks R m given (definition scope (.define line id name e) (eval scope e)) ([·]) m := by
  have alone := calm.alone rfl (.head _) scope
  refine .bind_reads (getRegister_keeps _) (getRegister_reads _) fun held read => ?_
  split
  next =>
    refine .bind (tracks _ m) fun v m' evaluated => ?_
    have free (r : SeriesRef) : ¬ m'.Bound (some id) r := fun bound =>
      getRegister_absent read r ((alone.ended evaluated).symm.trans bound)
    rw [own]
    split
    next noted => exact permits.allocRegister calm (List.mem_of_elem_eq_true noted) free v
    next fixed =>
      refine .of_keeps (setRegister_keeps scope _ v) fun guard => ?_
      rw [leaves_setRegister]
      exact permits.define calm own (fun mem => fixed (List.elem_eq_true_of_mem mem)) guard.start guard.before evaluated
        free
  next r =>
    refine Tracks.outOfDate fun bar now late => .bind (tracks _ m) fun v m' evaluated => Tracks.more ?_
    refine .read (now_reads v) fun w _ => ?_
    exact permits.store alone (getRegister_series read) evaluated (.late now late) w
  next => exact .found

theorem Permits.advances (looping : counts) (up : Bool) {counter : Value}
    (single : ∀ r, counter = .series r → (m.store.column r).Single) :
    Tracks R m₀ (counter :: given) (Machine.advance up counter) ([·]) m := by
  refine .of_keeps (advance_keeps up counter) fun guard => permits.trans guard.before ?_
  cases counter with
  | series r => exact permits.advance looping (guard.opens r (.head _)).present (single r rfl) up
  | _ => exact permits.quiet (Obeys.of_reads lift_reads m)

section Choices

variable {yes no : MachineM Value} (tracksYes : ∀ given m, Tracks R m given yes ([·]) m)
  (tracksNo : ∀ given m, Tracks R m given no ([·]) m)

include tracksYes tracksNo

omit permits in
theorem Tracks.branch (t : Bool) : Tracks R m given (branch t yes no) ([·]) m := by
  cases t with
  | true => exact tracksYes _ _
  | false => exact tracksNo _ _

theorem Permits.chooseNew (inline : Bool) (c : SeriesRef) {next : Value → MachineM Value}
    (rest : ∀ given r m', Made R m m' r → Tracks R m (.series r :: given) (next (.series r)) ([·]) m') :
    Tracks R m given (chooseNew inline c yes no >>= next) ([·]) m := by
  rw [Machine.chooseNew, bind_assoc]
  refine .read (onStore_reads (SeriesRef.filled_reads c)) fun filled _ => ?_
  split
  · simp only [chooseAll, bind_assoc, pure_bind]
    refine .read (onStore_reads (SeriesRef.length_reads c)) fun n _ => .bind (tracksYes _ m) fun a m₁ _ => ?_
    intro guard₁
    have copies : Obeys Quiet (copied n a) := copied_quiet n a
    refine Tracks.bind (permits.of_quiet (copied_keeps n a) copies) (fun r m₂ made => ?_) guard₁
    intro guard₂
    refine Tracks.bind (permits.on (tracksNo _ m₂)) (fun b m₃ chosen => ?_) guard₂
    have repeats : Obeys Quiet (repeated n b) := repeated_quiet n b
    have finite : Obeys Quiet (onStore c.finite) := onStore_quiet (SeriesRef.finite_grows c)
    refine .bind (permits.of_plain repeats) fun other m₄ held => .bind (permits.of_plain finite) fun cond m₅ cleaned => ?_
    have since : R m₂ m₅ := permits.trans (permits.ended (tracksNo _ m₂) guard₂ chosen)
      (permits.quiet (Trans.trans (repeats.ended held) (finite.ended cleaned)))
    have made : Made R m m₅ r :=
      ⟨guard₁.before, copies.ended made, copied_added made, since, rfl, Std.Refl.refl m₅.store⟩
    have touches := replaceUnless_touches (r := r) cond other n
    refine .bind (permits.of_fill made touches (replaceUnless_writes cond other n)
      (SeriesRef.replaceUnless_revises r cond other n)).more fun _ m₆ replaced => ?_
    have made := made.onStore touches replaced
    refine .read (onStore_reads (SeriesRef.valid_reads c)) fun valid _ => ?_
    refine .bind (permits.of_fill made (setValid_touches valid) (setValid_writes valid)
      (SeriesRef.setValid_revises r valid)).more fun _ m₇ stamped => ?_
    exact (rest _ r m₇ (made.onStore (setValid_touches valid) stamped)).more
  · simp only [chooseFirst, bind_assoc, pure_bind]
    refine .read bar_reads fun bar _ => .read (onStore_reads (SeriesRef.holdsAt_reads c bar)) fun t _ =>
      .bind (.branch tracksYes tracksNo t) fun v m₁ _ => ?_
    intro guard
    have starts : Obeys Quiet (started c v) := started_quiet c v
    refine Tracks.bind (permits.of_quiet (started_keeps c v) starts) (fun r m₂ made => ?_) guard
    exact rest _ r m₂ ⟨guard.before, starts.ended made, started_added made, permits.refl m₂, rfl, Std.Refl.refl m₂.store⟩

theorem Permits.choice {c y : Code} {n : Option Code} {inline : Bool}
    (calm : Calm nodes ids counts (.choice line id c y n inline)) (aloneYes : Alone (.choice line id c y n inline) yes)
    (aloneNo : Alone (.choice line id c y n inline) no) (cond : Value) :
    Tracks R m given (Machine.choose scope (.choice line id c y n inline) inline cond yes no) ([·]) m := by
  unfold Machine.choose
  split
  next c =>
    refine .bind_reads (getRegister_keeps _) (getRegister_reads _) fun held read => ?_
    split
    next r =>
      refine .read bar_reads fun bar _ => .read (onStore_reads (SeriesRef.holdsAt_reads c bar)) fun t _ =>
        .bind (.branch tracksYes tracksNo t) fun v m' found => Tracks.more ?_
      refine .read (onStore_reads (SeriesRef.filled_reads r)) fun filled asked => ?_
      split
      next open' =>
        have unfilled : m'.store.filled r = false := by
          obtain ⟨_, asked, _⟩ := onStore_eq_ok asked
          rw [SeriesRef.outcome_filled] at asked
          rw [Except.ok.inj (congrArg Prod.fst asked)]
          simpa using open'
        refine .read (now_reads v) fun w _ => ?_
        exact permits.store (branch_obeys t aloneYes aloneNo) (getRegister_series read) found (.unfilled unfilled) w
      next => exact .found
    next other =>
      refine permits.chooseNew tracksYes tracksNo inline c fun given r m' made => ?_
      refine .of_keeps (setRegister_keeps scope _ _) fun guard => ?_
      rw [leaves_setRegister]
      refine permits.choose calm (fun r bound => ?_) guard.before made
      exact other r (bound.read read)
  next => exact .read lift_reads fun t _ => .branch tracksYes tracksNo t

end Choices

section Rounds

variable {first last : Value} {body : MachineM Value} {up : Bool}
  (calm : Calm nodes ids counts (.define line id name e)) (looping : counts) (held : m₀.holds (some id) = some first)
  (absent : first = .absent → id ∉ ids) (single : ∀ r, first = .series r → ∃ m₁, R m₀ m₁ ∧ (m₁.store.column r).Single)
  (tracks : ∀ given m, Tracks R m given body ([·]) m)

include calm looping held absent single

theorem Permits.counter (counted : Counted first v) :
    Tracks R m₀ (v :: given) (setRegister scope (.define line id name e) v) ([·]) m := by
  refine .of_keeps (setRegister_keeps scope _ v) fun guard => ?_
  rw [leaves_setRegister]
  exact permits.count calm looping held absent single guard.before counted

include tracks

theorem Permits.rounds {after : Value → MachineM Value}
    (goes : ∀ given m counter, Counted first counter → Tracks R m₀ (counter :: given) (after counter) ([·]) m)
    (n : Nat) (counter : Value) (counted : Counted first counter) :
    Tracks R m₀ (counter :: given) (rounds scope (.define line id name e) up last body after n counter) ([·]) m := by
  induction n generalizing counter given m with
  | zero => exact goes given m counter counted
  | succ n ih =>
    rw [rounds_succ]
    refine .bind (permits.on (tracks _ m)) fun v m₁ _ => ?_
    intro guard
    have compares : Obeys Quiet (compare .eq counter last) := compare_quiet .eq counter last
    refine Tracks.bind (permits.of_plain compares) (fun w m₂ compared => ?_) guard
    refine .read (truth_reads w) fun done asked => ?_
    split
    · exact .found
    · have single : ∀ r, counter = .series r → (m₂.store.column r).Single := by
        rintro r rfl
        have opens := guard.opens r (.tail _ (.head _))
        rw [(compares.ended compared).store.column_eq opens.present opens.inside]
        exact single_of_truth compared asked
      refine .bind (permits.advances looping up single).more fun next m₃ moved => ?_
      exact .bind (permits.counter calm looping held absent ‹_› (counted.advance moved)) fun _ m _ =>
        (ih next (counted.advance moved)).more

theorem Permits.iterate (n : Nat) (counter : Value) (counted : Counted first counter) :
    Tracks R m₀ (counter :: given) (iterate scope (.define line id name e) up last body n counter) ([·]) m := by
  refine permits.rounds calm looping held absent single tracks (fun given m counter counted => ?_) n counter counted
  have cut (n : Nat) :
      Tracks R m₀ (counter :: given) (someRounds scope (.define line id name e) up last body n counter) _ m :=
    permits.rounds calm looping held absent single tracks (fun _ _ _ _ => .throw _) n counter counted
  obtain never | ⟨n, same⟩ := (countOn_nears counter).cases m
  · rw [Tracks, leaves, never]
    exact Tracks.throw .endless
  · rw [Tracks, leaves, same]
    exact cut n

end Rounds

theorem Permits.loop (looping : counts) (calm : Calm nodes ids counts (.define line id name e))
    (own : scope.mutable = ids) {last body : MachineM Value}
    (tracksFirst : ∀ given m, Tracks R m given (Machine.eval scope e) ([·]) m)
    (tracksLast : ∀ given m, Tracks R m given last ([·]) m) (tracksBody : ∀ given m, Tracks R m given body ([·]) m) :
    Tracks R m given (Machine.loop scope (.define line id name e) (Machine.eval scope e) last body) ([·]) m := by
  refine .bind (permits.definition calm own tracksFirst) fun first m₀ started => permits.on ?_
  have held := definition_holds (calm.alone rfl (.head _) scope) started
  have absent (h : first = .absent) : id ∉ ids := by
    subst h
    exact own ▸ (definition_absent started).1
  refine .bind (tracksLast _ m₀) fun last m₁ _ => ?_
  intro guard
  refine Tracks.bind (permits.of_plain (compare_quiet .le first last)) (fun w m₂ compared => ?_) guard
  refine .read (truth_reads w) fun up asked => ?_
  -- Only a single cell can be compared and tell which way to count.
  have single (r : SeriesRef) (same : first = .series r) : ∃ m₁, R m₀ m₁ ∧ (m₁.store.column r).Single := by
    subst same
    exact ⟨m₁, guard.before, single_of_truth compared asked⟩
  refine .read (firstEntry_reads first) fun start _ => ?_
  refine .bind (permits.iterate calm looping held absent single tracksBody _ first (.inl rfl)).more fun v m _ => ?_
  exact .bind (permits.counter calm looping held absent single (.inl rfl)).more.more fun _ m _ => Tracks.found.more

theorem Permits.evalClosed :
    EvalClosed ids (Calm nodes ids counts) fun given x gives => ∀ m, Tracks R m given x gives m where
  pure old _ := .of_keeps (.pure old) (·.before)
  throw e _ := .throw e
  bind first rest m := .bind (first m) fun a m' _ => permits.on (rest a m')
  mono judged mem m := (judged m).mono mem
  get _ rest m := .read .get fun m' _ => rest m' m
  same := id
  join first rest m := .bind (first m) fun a m' _ => permits.on (rest a m')
  widen judged mem m := (judged m).mono mem
  look _ rest m := .read .get fun m' _ => rest m' m
  paired := .one ids
  part := Calm.part
  literal calm _ _ := .plain fun r same => by simpa [same, Code.closed, Value.isSeries] using calm.closed
  logic isAnd r v _ := permits.of_quiet (.of_builds (SeriesRef.logic_builds isAnd r v))
    (onStore_quiet (SeriesRef.logic_builds isAnd r v).grows)
  now v _ := permits.of_plain (.of_reads (now_reads v))
  binary op a b _ := permits.of_quiet (binary_keeps op a b) (binary_quiet op a b)
  unary op v _ := permits.of_quiet (unary_keeps op v) (unary_quiet op v)
  call code name fn args named _ :=
    permits.of_quiet (call_keeps code name fn args named) (call_quiet code name fn args named)
  builtin calm _ _ _ _ _ := permits.builtinVariable calm
  assign calm _ v _ := by
    obtain ⟨⟨id, noted, number⟩, _⟩ := calm.marked
    exact permits.setRegisterValue v fun _ _ => .assigned noted number
  choice {_ _ _ _ no _} calm tracksYes tracksNo cond scope _ own _ _ := by
    refine permits.choice (tracksYes own) (tracksNo own) calm (calm.alone rfl (.tail _ (.head _)) scope) ?_ cond
    cases no with
    | none => exact alone_of_quiet (.pure _) _
    | some e => exact calm.alone rfl (.tail _ (.tail _ (.head _))) scope
  loop calm tracksFirst tracksLast tracksBody _ _ own _ _ :=
    permits.loop (calm.counting rfl) (calm.part (.head _)) own.1 (tracksFirst own) (tracksLast own) (tracksBody own)
  define calm tracks _ _ own _ _ := permits.definition calm own.1 (tracks own)

theorem Permits.eval {code : Code} (calm : Calm nodes ids counts code) (own : scope.mutable = ids)
    (sound : m.Sound fun _ => False) : R m (leaves (Machine.eval scope code) m) :=
  (permits.evalClosed.judged own code calm [] m ⟨sound, permits.refl m, sound, nofun⟩).1

end

end Machine

end PineEngine
