import PineEngine.Proofs.Evaluating

/-! # What a choice yields at the current bar

A choice on a series keeps the series that it yields, and there are four ways in which an evaluation comes to
it (`ChoicePath`). What is settled for all bars at once is not looked at again: at later bars the branch that
the condition takes is evaluated, but its value does not count. `Machine.choice_entry` says for each way when
the entry at the current bar is that of the branch.
-/

namespace PineEngine

variable {apart : Nat → Prop} {r : SeriesRef}

open Script Builtin Computation Store SeriesRef Column Option

def Value.double? : Value → Option Float
  | .float x | .cell (.float x) => some x
  | _ => none

def Column.floatAt (c : Column) (i : Nat) : Option Float :=
  match c with
  | ⟨.floats xs, none⟩ => xs[i]?
  | _ => none

/-- The double that a value has at a bar; a single double is the same at every bar. -/
def Store.floatAt (s : Store) (bar : Nat) : Value → Option Float
  | .series r => (s.column r).floatAt bar
  | v => v.double?

variable {n : Nat} {s s' : Store} {cond : SeriesRef}

namespace Column

variable {c c' : Column} {i : Nat} {v : Value} {x y : Float} {places : List Nat}

theorem floatAt_eq_some (here : c.floatAt i = some x) : ∃ xs, c = ⟨.floats xs, none⟩ ∧ xs[i]? = some x := by
  unfold floatAt at here
  split at here
  · exact ⟨_, rfl, here⟩
  · cases here

theorem get_of_floatAt (here : c.floatAt i = some x) : c.get i = .ok (.cell (.float x)) := by
  obtain ⟨xs, rfl, found⟩ := floatAt_eq_some here
  have inside := (Array.getElem?_eq_some_iff.mp found).1
  have place : position? xs.size i = some i := position?_natCast.mpr ⟨rfl, inside⟩
  simp only [get, length, size, Cells.size, place, Cells.get?, found, map_some]

theorem set_floats {xs : Array Float} (inside : i < xs.size) (double : Cells.floatCell v = .ok x) :
    set ⟨.floats xs, none⟩ i v = .ok ⟨.floats (xs.setIfInBounds i x), none⟩ := by
  have place : position? xs.size i = some i := position?_natCast.mpr ⟨rfl, inside⟩
  simp only [set, length, size, Cells.size, place, Cells.set, double, Except.map]

theorem floatAt_set (here : c.floatAt i = some y) (h : c.set i v = .ok c') (double : Cells.floatCell v = .ok x) :
    c'.floatAt i = some x := by
  obtain ⟨xs, rfl, found⟩ := floatAt_eq_some here
  have inside := (Array.getElem?_eq_some_iff.mp found).1
  rw [set_floats inside double] at h
  cases h
  simp [floatAt, inside]

theorem floatAt_set_ne {j : Nat} (here : c.floatAt j = some x) (h : c.set i v = .ok c') (other : i ≠ j) :
    c'.floatAt j = some x := by
  obtain ⟨xs, rfl, found⟩ := floatAt_eq_some here
  unfold set at h
  split at h
  · cases h
  next k place =>
    obtain ⟨rfl, _⟩ := position?_natCast.mp place
    obtain ⟨_, stored, rfl⟩ := map_eq_ok h
    obtain ⟨z, _, rfl⟩ := map_eq_ok stored
    simpa [floatAt, Array.getElem?_setIfInBounds_ne other] using found

theorem floatCell_of_double (double : v.double? = some x) : Cells.floatCell v = .ok x := by
  unfold Value.double? at double
  split at double <;> cases double <;> rfl

theorem ofValues_doubles (double : v.double? = some x) (n : Nat) :
    ofValues (List.replicate n v) = .ok ⟨.floats (Array.replicate n x), none⟩ := by
  cases n with
  | zero => rfl
  | succ n =>
    have single : items? v = none := by
      unfold Value.double? at double
      split at double <;> cases double <;> rfl
    have kind : Kind.ofValue v = .float := by
      unfold Value.double? at double
      split at double <;> cases double <;> rfl
    rw [ofValues_replicate single, kind, Cells.ofValuesAs, mapM_replicate (floatCell_of_double double)]
    simp [Except.map]

theorem floatAt_replicate (inside : i < n) (x : Float) : floatAt ⟨.floats (Array.replicate n x), none⟩ i = some x := by
  simp [floatAt, inside]

theorem floatAt_startWith (inside : i < n) (double : Cells.floatCell v = .ok y) :
    ∃ c, set ⟨.floats (Array.replicate n x), none⟩ 0 v = .ok c ∧ c.floatAt i = some (if i = 0 then y else x) := by
  refine ⟨_, set_floats (i := 0) (by simpa using Nat.zero_lt_of_lt inside) double, ?_⟩
  by_cases first : i = 0
  · subst first
    simp [floatAt, inside]
  · rw [if_neg first]
    show ((Array.replicate n x).setIfInBounds 0 y)[i]? = some x
    rw [Array.getElem?_setIfInBounds_ne (Ne.symm first)]
    simp [inside]

theorem replaceUnless_holdsAt {cond other : Column}
    (h : replaceUnless cond other places c = .ok c') (mem : i ∈ places) : ∃ t, cond.holdsAt i = .ok t := by
  induction places generalizing c with
  | nil => cases mem
  | cons j places ih =>
    obtain ⟨c₁, here, h⟩ := bind_eq_ok h
    obtain ⟨t, held, _⟩ := bind_eq_ok here
    rcases List.mem_cons.mp mem with rfl | later
    · exact ⟨t, held⟩
    · exact ih h later

theorem replaceUnless_floatAt {cond other : Column} {t : Bool}
    (h : replaceUnless cond other places c = .ok c') (distinct : places.Nodup) (held : cond.holdsAt i = .ok t)
    (own : c.floatAt i = some x) (others : other.floatAt i = some y) :
    c'.floatAt i = some (if i ∈ places ∧ t = false then y else x) := by
  induction places generalizing c x with
  | nil =>
    cases h
    simpa using own
  | cons j places ih =>
    obtain ⟨c₁, here, h⟩ := bind_eq_ok h
    obtain ⟨t', held', here⟩ := bind_eq_ok here
    obtain ⟨new, distinct⟩ := List.nodup_cons.mp distinct
    by_cases same : j = i
    · subst same
      cases held.symm.trans held'
      cases t with
      | true =>
        cases here
        simpa [new] using ih h distinct own
      | false =>
        obtain ⟨v, got, here⟩ := bind_eq_ok here
        rw [get_of_floatAt others] at got
        cases got
        simpa [new] using ih h distinct (floatAt_set own here rfl)
    · have own' : c₁.floatAt i = some x := by
        cases t' with
        | true =>
          cases here
          exact own
        | false =>
          obtain ⟨v, _, here⟩ := bind_eq_ok here
          exact floatAt_set_ne own here same
      simpa [Ne.symm same] using ih h distinct own'

end Column

theorem Store.Grows.column_open (grows : s.Grows s') (opens : s.Open apart r) :
    s'.column r = s.column r :=
  grows.column_eq opens.present opens.inside

namespace SeriesRef

variable {apart : Nat → Prop} {s s' : Store} {r r' : SeriesRef} {bar : Nat} {x : Float}

theorem floatAt_alloc (s : Store) (c : Column) (valid : Int) (origin : Origin) (bar : Nat) :
    (s.alloc c valid origin).2.floatAt bar (.series ⟨s.series.size⟩) = c.floatAt bar :=
  congrArg (Column.floatAt · bar) (Store.column_alloc s c valid origin)

theorem toMutable_floatAt (opens : s.Open apart r) (h : outcome r.toMutable s = (.ok r', s'))
    (here : (s.column r).floatAt bar = some x) :
    s'.floatAt bar (.series r') = some (if bar = 0 then x else notANumber) := by
  obtain ⟨xs, column, found⟩ := floatAt_eq_some here
  have inside := (Array.getElem?_eq_some_iff.mp found).1
  have size : (s.column r).size = xs.size := by rw [column]; rfl
  have default : outcome r.default s = (.ok (.float notANumber), s) := by rw [outcome_default, column]; rfl
  obtain ⟨y, first, same⟩ : ∃ y, (s.column r).floatAt 0 = some y ∧ (bar = 0 → y = x) := by
    rw [column]
    refine ⟨xs[0], Array.getElem?_eq_getElem (by omega), fun start => ?_⟩
    subst start
    exact (Array.getElem?_eq_some_iff.mp found).2
  obtain ⟨c, stored, entry⟩ := floatAt_startWith (x := notANumber) inside
    (show Cells.floatCell (.cell (.float y)) = .ok y from rfl)
  have made := outcome_replicate (n := xs.size) (fun _ => Value.noConfusion)
    (ofValues_doubles (show (Value.float notANumber).double? = some notANumber from rfl) _) s
  have got {s₁ : Store} (grows : s.Grows s₁) : outcome (r.get 0) s₁ = (.ok (.cell (.float y)), s₁) := by
    rw [outcome_get, grows.column_open opens]
    exact congrArg (·, s₁) (get_of_floatAt first)
  rw [toMutable, bind_ok (outcome_size r s), bind_ok default, size, bind_ok made,
    bind_ok (got (alloc_grows ..)), outcome_setStart stored] at h
  cases h
  rw [floatAt_alloc, entry]
  split
  next start => rw [same start]
  next => rfl

theorem mutable_floatAt {v : Value} (h : outcome (SeriesRef.mutable v n) s = (.ok r', s'))
    (double : v.double? = some x) (inside : bar < n) :
    s'.floatAt bar (.series r') = some (if bar = 0 then x else notANumber) := by
  obtain ⟨c, stored, entry⟩ := floatAt_startWith (x := notANumber) inside (floatCell_of_double double)
  have made := outcome_replicate (n := n) (fun _ => Value.noConfusion)
    (ofValues_doubles (show (Value.float notANumber).double? = some notANumber from rfl) _) s
  have started : outcome (SeriesRef.mutable v n) s = (.ok ⟨s.series.size⟩, (s.alloc c 0 .plain).2) := by
    unfold Value.double? at double
    split at double <;> cases double
    all_goals
      rw [SeriesRef.mutable, bind_ok made, outcome_setStart stored]
  rw [started] at h
  cases h
  rw [floatAt_alloc, entry]

theorem finite_eq_ok {c : SeriesRef} (opens : s.Open apart c) (inside : ∀ k, apart k → k < s.columns.size)
    (h : outcome c.finite s = (.ok cond, s')) :
    s.Grows s' ∧ s'.Open apart cond ∧ s'.column cond = (s.column c).asCondition := by
  unfold finite at h
  rw [bind_ok (outcome_column c s)] at h
  unfold asCondition
  split at h
  next float =>
    rw [outcome_mapColumn (f := fun c => .ok c.finite) rfl] at h
    cases h
    rw [if_pos float]
    have added := alloc_added (Std.Refl.refl s) (s.column c).finite (s.valid c) (s.head c).origin.derived
    exact ⟨added.grows, added.opens inside, column_alloc ..⟩
  next other =>
    cases h
    rw [if_neg other]
    exact ⟨Std.Refl.refl s, opens, rfl⟩

end SeriesRef

namespace Machine

variable {apart : Nat → Prop} {m m' : Machine} {bar n : Nat} {v : Value} {r : SeriesRef} {x : MachineM Value}
  {inline : Bool}

theorem replicate_eq_ok (bar : Nat) (single : ∀ r, v ≠ .series r)
    (h : outcome (SeriesRef.replicate n v) s = (.ok r, s')) :
    ∃ c valid origin, r = ⟨s.series.size⟩ ∧ s' = (s.alloc c valid origin).2 ∧
      ∀ x, s.floatAt bar v = some x → bar < n → c.floatAt bar = some x := by
  obtain ⟨vs, entries, h⟩ := (entries_reads _).bind_eq_ok h
  rw [outcome_entries fun r mem => single r (List.eq_of_mem_replicate mem).symm] at entries
  cases entries
  obtain ⟨c, column, h⟩ := SeriesRef.lift_reads.bind_eq_ok h
  cases h
  refine ⟨c, _, _, rfl, rfl, fun x here inside => ?_⟩
  have double : v.double? = some x := by
    cases v with
    | series r => exact (single r rfl).elim
    | _ => exact here
  rw [ofValues_doubles double] at column
  cases column
  exact floatAt_replicate inside x

theorem copied_eq_ok (bar : Nat) (h : outcome (copied n v) m = (.ok r, m')) :
    ∃ c valid origin, r = ⟨m.store.series.size⟩ ∧ m' = { m with store := (m.store.alloc c valid origin).2 } ∧
      ∀ x, m.store.floatAt bar v = some x → bar < n → c.floatAt bar = some x := by
  unfold copied at h
  split at h
  next =>
    obtain ⟨s, made, rfl⟩ := onStore_eq_ok h
    rw [outcome_copy] at made
    cases made
    exact ⟨_, _, _, rfl, rfl, fun x here _ => here⟩
  next single =>
    obtain ⟨s, made, rfl⟩ := onStore_eq_ok h
    obtain ⟨c, valid, origin, rfl, rfl, entry⟩ := replicate_eq_ok bar single made
    exact ⟨c, valid, origin, rfl, rfl, entry⟩

theorem store_of_onStore {α : Type} {x : SeriesM α} {a : α} (h : outcome (onStore x) m = (.ok a, m')) :
    outcome x m.store = (.ok a, m'.store) := by
  obtain ⟨s, made, rfl⟩ := onStore_eq_ok h
  exact made

theorem repeated_eq_ok (bar : Nat) (opens : ∀ r, v = .series r → m.store.Open apart r)
    (inside : ∀ k, apart k → k < m.store.columns.size) (h : outcome (repeated n v) m = (.ok r, m')) :
    m.store.Grows m'.store ∧ m'.store.Open apart r ∧
      ∀ x, m.store.floatAt bar v = some x → bar < n → m'.store.floatAt bar (.series r) = some x := by
  unfold repeated at h
  split at h
  next =>
    cases h
    exact ⟨Std.Refl.refl _, opens r rfl, fun x here _ => here⟩
  next single =>
    obtain ⟨c, valid, origin, rfl, same, entry⟩ := replicate_eq_ok bar single (store_of_onStore h)
    have added := alloc_added (Std.Refl.refl m.store) c valid origin
    rw [same]
    refine ⟨added.grows, added.opens inside, fun x here low => ?_⟩
    rw [floatAt_alloc]
    exact entry x here low

theorem open_reserve (opens : s.Open (fun _ => False) r) (c : Column) (valid : Int) (origin : Origin) :
    (s.alloc c valid origin).2.Open (· = s.columns.size) r := by
  have grows := alloc_grows s c valid origin
  have after := opens.spares (grows.spares fun _ none => none.elim)
  refine ⟨after.present, after.inside, fun last => ?_⟩
  rw [grows.head_eq opens.present] at last
  exact Nat.ne_of_lt opens.inside last

theorem Sound.reserve (sound : m.Sound fun _ => False) (c : Column) (valid : Int) (origin : Origin) :
    Sound (· = m.store.columns.size) { m with store := (m.store.alloc c valid origin).2 } := by
  refine ⟨fun k last => ?_, fun _ running => open_reserve (sound.times _ running) c valid origin,
    fun _ running x mem r value => open_reserve (sound.held _ running x mem r value) c valid origin, sound.inputs,
    sound.told⟩
  subst last
  simp [alloc]

/-- The branches of a choice: each keeps a sound machine sound, and leaves the register of the choice alone. -/
structure Branch (id : Nat) (x : MachineM Value) : Prop where
  keeps : ∀ apart, Keeps apart [] x ([·])
  leaves : Obeys (Leaves id) x

/-- What is evaluated leaves a series alone whose column `k` was set apart. -/
theorem Branch.column_eq {id k : Nat} (branch : Branch id x) (sound : m.Sound (· = k))
    (present : r.id < m.store.series.size) (own : (m.store.head r).column = k)
    (given : outcome x m = (.ok v, m')) :
    r.id < m'.store.series.size ∧ (m'.store.head r).column = k ∧ m'.store.column r = m.store.column r := by
  obtain ⟨follows, _⟩ := branch.keeps _ m sound nofun
  rw [given] at follows
  have column := follows.store.head_column present
  refine ⟨follows.store.series.lt present, column.trans own, ?_⟩
  rw [Store.column, Store.column, column, follows.store.kept _ own]

inductive ChoicePath where
  /-- No series is kept yet and all of the condition is valid: the choice is settled for all bars. -/
  | whole
  /-- No series is kept yet: one is started. -/
  | first
  /-- A series is kept, and its entry is set at the bar. -/
  | again
  /-- All of the series that is kept is valid: it stays as it is. -/
  | kept

/-- An evaluation of a choice on a series: the way it goes, the double at the bar of the branch that the
    condition takes there, and the double at the bar of the series beside it, which is the other branch or the
    series that is kept. -/
inductive Chosen (id : Nat) (c : SeriesRef) (yes no : MachineM Value) (bar : Nat) (m : Machine) :
    ChoicePath → Option Float → Option Float → Prop where
  | whole {n : Nat} {a b : Value} {r : SeriesRef} {m₁ m₂ m₃ : Machine} {t : Bool}
    (empty : ∀ r, ¬ m.Bound (some id) r) (filled : m.store.filled c)
    (left : outcome yes m = (.ok a, m₁)) (copy : outcome (copied n a) m₁ = (.ok r, m₂))
    (right : outcome no m₂ = (.ok b, m₃)) (taken : (m₃.store.column c).asCondition.holdsAt bar = .ok t) :
    Chosen id c yes no bar m .whole (if t then m₁.store.floatAt bar a else m₃.store.floatAt bar b)
      (if t then m₃.store.floatAt bar b else m₁.store.floatAt bar a)
  | first {t : Bool} {w : Value} {m₁ : Machine}
    (empty : ∀ r, ¬ m.Bound (some id) r) (unfilled : ¬ m.store.filled c)
    (taken : outcome (onStore (c.holdsAt bar)) m = (.ok t, m)) (value : outcome (branch t yes no) m = (.ok w, m₁)) :
    Chosen id c yes no bar m .first (m₁.store.floatAt bar w) (m₁.store.floatAt bar w)
  | again {r : SeriesRef} {t : Bool} {w : Value} {m₁ : Machine} (bound : m.Bound (some id) r)
    (taken : outcome (onStore (c.holdsAt bar)) m = (.ok t, m)) (value : outcome (branch t yes no) m = (.ok w, m₁))
    (unfilled : ¬ m₁.store.filled r) :
    Chosen id c yes no bar m .again (m₁.store.floatAt bar w) (m₁.store.floatAt bar (.series r))
  | kept {r : SeriesRef} {t : Bool} {w : Value} {m₁ : Machine} (bound : m.Bound (some id) r)
    (taken : outcome (onStore (c.holdsAt bar)) m = (.ok t, m)) (value : outcome (branch t yes no) m = (.ok w, m₁))
    (filled : m₁.store.filled r) :
    Chosen id c yes no bar m .kept (m₁.store.floatAt bar w) (m₁.store.floatAt bar (.series r))

/-- Whether the entry at the bar is the one that the branch has there: always, if the choice is settled for all
    bars now or its entry is set. A series that is started has it at its start only, and elsewhere what is not a
    number; one that stays has whatever was settled before. -/
def ChoicePath.UpToDate (bar : Nat) (taken beside : Option Float) : ChoicePath → Prop
  | .whole | .again => True
  | .first => bar = 0 ∨ taken = some notANumber
  | .kept => beside = taken

variable {id : Nat} {c : SeriesRef} {yes no : MachineM Value}

theorem replaceUnless_entry {k : Nat} {other : SeriesRef} (own : (s.head r).column = k) (inside : k < s.columns.size)
    (openCond : s.Open (· = k) cond) (openOther : s.Open (· = k) other) (low : bar < n)
    (h : outcome (r.replaceUnless cond other n) s = (.ok (), s')) :
    ∃ t, (s.column cond).holdsAt bar = .ok t ∧ ∀ x y, (s.column r).floatAt bar = some x →
      (s.column other).floatAt bar = some y → (s'.column r).floatAt bar = some (if t then x else y) := by
  subst own
  have replaces := replaceUnless_replaces (List.range n) inside openCond.free openOther.free
  unfold Replaces at replaces
  split at replaces
  next c replaced =>
    rw [SeriesRef.replaceUnless, replaces] at h
    cases h
    rw [column_setColumn inside]
    obtain ⟨t, held⟩ := replaceUnless_holdsAt replaced (List.mem_range.mpr low)
    refine ⟨t, held, fun x y entry otherEntry => ?_⟩
    rw [replaceUnless_floatAt replaced List.nodup_range held entry otherEntry]
    cases t <;> simp [low]
  next e _ =>
    rw [SeriesRef.replaceUnless] at h
    rw [h] at replaces
    cases replaces

theorem chooseAll_entry (branchYes : Branch id yes) (branchNo : Branch id no) (sound : m.Sound fun _ => False)
    (opens : m.store.Open (fun _ => False) c) (low : bar < (m.store.column c).length)
    (empty : ∀ r, ¬ m.Bound (some id) r) (filled : m.store.filled c)
    (h : outcome (chooseAll c yes no) m = (.ok v, m')) :
    ∃ x z, Chosen id c yes no bar m .whole x z ∧ (x.isSome → z.isSome → m'.store.floatAt bar v = x) := by
  obtain ⟨n, counted, h⟩ := (onStore_reads (length_reads c)).bind_eq_ok h
  cases counted
  obtain ⟨a, m₁, left, r, m₂, copy, h⟩ := outcome_bind₂_eq_ok h
  obtain ⟨b, m₃, right, other, m₄, repeated, h⟩ := outcome_bind₂_eq_ok h
  obtain ⟨cond, m₅, finite, _, m₆, replaced, h⟩ := outcome_bind₂_eq_ok h
  obtain ⟨valid, read, h⟩ := (onStore_reads (valid_reads c)).bind_eq_ok h
  obtain ⟨_, m₇, marked, h⟩ := outcome_bind_eq_ok h
  cases h
  -- The copy is a new series that no register holds, so the second branch leaves it alone.
  obtain ⟨follows, _⟩ := branchYes.keeps _ m sound nofun
  rw [left] at follows
  obtain ⟨column, v₀, o₀, rfl, rfl, own⟩ := copied_eq_ok bar copy
  have apart := follows.sound.reserve column v₀ o₀
  obtain ⟨present, head, same⟩ := branchNo.column_eq apart (r := ⟨m₁.store.series.size⟩) (by simp [alloc])
    (by rw [head_alloc]) right
  obtain ⟨follows', gave⟩ := branchNo.keeps _ _ apart nofun
  rw [right] at follows' gave
  have inside : m₁.store.columns.size < m₃.store.columns.size := follows'.sound.inside _ rfl
  have openC := (open_reserve (opens.spares follows.store) column v₀ o₀).spares follows'.store
  -- What is added from here on leaves the columns as they are.
  obtain ⟨grows, openOther, otherEntry⟩ := repeated_eq_ok bar
    (fun r found => gave b rfl r (by rw [found]; exact List.mem_singleton_self _)) follows'.sound.inside repeated
  have openC₄ := openC.spares (grows.spares follows'.sound.inside)
  obtain ⟨grows', openCond, condition⟩ := finite_eq_ok openC₄
    (fun k last => grows.columns.lt (last ▸ inside)) (store_of_onStore finite)
  rw [grows.column_open openC] at condition
  have later : m₃.store.Grows m₅.store := Trans.trans grows grows'
  have head₅ : (m₅.store.head ⟨m₁.store.series.size⟩).column = m₁.store.columns.size := by
    rw [later.head_eq present, head]
  have column₅ : m₅.store.column ⟨m₁.store.series.size⟩ = column := by
    rw [later.column_eq present (head.symm ▸ inside), same]
    exact column_alloc ..
  obtain ⟨t, taken, entry⟩ := replaceUnless_entry head₅ (later.columns.lt inside) openCond
    (openOther.spares (grows'.spares fun k last => grows.columns.lt (last ▸ inside))) low
    (store_of_onStore replaced)
  rw [condition] at taken
  refine ⟨_, _, .whole empty filled left copy right taken, fun some some' => ?_⟩
  have values : (m₁.store.floatAt bar a).isSome ∧ (m₃.store.floatAt bar b).isSome := by
    cases t with
    | true => exact ⟨some, some'⟩
    | false => exact ⟨some', some⟩
  obtain ⟨x, fromLeft⟩ := isSome_iff_exists.mp values.1
  obtain ⟨y, fromRight⟩ := isSome_iff_exists.mp values.2
  have result := entry x y (by rw [column₅]; exact own x fromLeft low)
    (by rw [grows'.column_open openOther]; exact otherEntry y fromRight low)
  have stored : m'.store = m₆.store.setValid ⟨m₁.store.series.size⟩ valid := by
    cases marked
    rfl
  show (m'.store.column _).floatAt bar = _
  rw [stored, column_setValid, result, fromLeft, fromRight]
  cases t <;> rfl

theorem started_entry (opens : ∀ r, v = .series r → m.store.Open apart r) (low : bar < (m.store.column c).size)
    (h : outcome (started c v) m = (.ok r, m')) {x : Float} (entry : m.store.floatAt bar v = some x) :
    m'.store.floatAt bar (.series r) = some (if bar = 0 then x else notANumber) := by
  unfold started at h
  split at h
  next r => exact toMutable_floatAt (opens r rfl) (store_of_onStore h) entry
  next single =>
    have double : v.double? = some x := by
      cases v with
      | series r => exact (single r rfl).elim
      | _ => exact entry
    obtain ⟨n, counted, h⟩ := (onStore_reads (size_reads c)).bind_eq_ok h
    cases counted
    exact mutable_floatAt (store_of_onStore h) double low

theorem length_le_size (c : Column) : c.length ≤ c.size := by
  unfold Column.length
  split
  · exact Nat.le_refl _
  · split
    · exact Nat.zero_le _
    · exact Nat.div_le_self ..

theorem Branch.branch (branchYes : Branch id yes) (branchNo : Branch id no) (t : Bool) :
    Branch id (branch t yes no) := by
  cases t with
  | true => exact branchYes
  | false => exact branchNo

theorem chooseFirst_entry (branchYes : Branch id yes) (branchNo : Branch id no) (sound : m.Sound fun _ => False)
    (opens : m.store.Open (fun _ => False) c) (now : m.barNow = some (bar : Int))
    (low : bar < (m.store.column c).length) (h : outcome (chooseFirst c yes no) m = (.ok v, m')) :
    ∃ t w m₁, outcome (onStore (c.holdsAt bar)) m = (.ok t, m) ∧ outcome (branch t yes no) m = (.ok w, m₁) ∧
      ∀ x, m₁.store.floatAt bar w = some x → (m'.store.floatAt bar v = some x ↔ bar = 0 ∨ x = notANumber) := by
  unfold chooseFirst at h
  rw [bind_ok (outcome_bar now)] at h
  obtain ⟨t, taken, h⟩ := (onStore_reads (holdsAt_reads c bar)).bind_eq_ok h
  obtain ⟨w, m₁, value, r, m₂, start, h⟩ := outcome_bind₂_eq_ok h
  cases h
  refine ⟨t, w, m₁, taken, value, fun x entry => ?_⟩
  obtain ⟨follows, gave⟩ := (branchYes.branch branchNo t).keeps _ m sound nofun
  rw [value] at follows gave
  have size : bar < (m₁.store.column c).size := by
    rw [← follows.store.length opens] at low
    exact Nat.lt_of_lt_of_le low (length_le_size _)
  have opened (r : SeriesRef) (found : w = .series r) : m₁.store.Open (fun _ => False) r :=
    gave w rfl r (by rw [found]; exact List.mem_singleton_self _)
  rw [started_entry opened size start entry]
  split
  next start => simp [start]
  next later => simp [later, eq_comm]

theorem now_floatAt (now : m.barNow = some (bar : Int)) {x : Float} (entry : m.store.floatAt bar v = some x) :
    ∃ w, outcome (Machine.now v) m = (.ok w, m) ∧ Cells.floatCell w = .ok x := by
  cases v with
  | series r =>
    refine ⟨.cell (.float x), ?_, rfl⟩
    rw [Machine.now, bind_ok (outcome_bar now), outcome_onStore, SeriesRef.outcome_get,
      get_of_floatAt entry]
  | _ => exact ⟨_, rfl, floatCell_of_double entry⟩

variable {code : Code} {scope : Scope}

theorem setRegisterValue_column (now : m.barNow = some (bar : Int)) (bound : m.Bound code.id? r)
    (opens : m.store.Open apart r) {w : Value} (h : outcome (setRegisterValue code w) m = (.ok (), m')) :
    (m.store.column r).set bar w = .ok (m'.store.column r) := by
  obtain ⟨c, running, here⟩ := map_eq_some_iff.mp now
  rw [setRegisterValue, bind_ok (outcome_current running), here] at h
  rw [Bound, holds, running, bind_some] at bound
  obtain ⟨register, found, held⟩ := map_eq_some_iff.mp bound
  obtain ⟨code', value⟩ := register
  cases held
  rw [found] at h
  obtain ⟨_, m₁, stored, h⟩ := outcome_bind_eq_ok h
  obtain ⟨column, stored, same⟩ := set_eq_ok (store_of_onStore stored)
  cases h
  rw [column_setValid, same, column_setColumn opens.inside, stored]

/-- A choice that keeps a series gives it, with the entry of the branch that the condition takes if it is not yet
    valid at all bars. -/
theorem choose_held (named : code.id? = some id) (branchYes : Branch id yes) (branchNo : Branch id no)
    (sound : m.Sound fun _ => False) (now : m.barNow = some (bar : Int)) (bound : m.Bound (some id) r)
    (h : outcome (choose scope code inline (.series c) yes no) m = (.ok v, m')) :
    ∃ t w m₁, outcome (onStore (c.holdsAt bar)) m = (.ok t, m) ∧ outcome (branch t yes no) m = (.ok w, m₁) ∧
      v = .series r ∧ (m₁.store.filled r → m' = m₁) ∧
      (¬ m₁.store.filled r → ∀ x, m₁.store.floatAt bar w = some x →
        ∃ u, Cells.floatCell u = .ok x ∧ (m₁.store.column r).set bar u = .ok (m'.store.column r)) := by
  have running : m.barNow.isSome := by rw [now]; rfl
  have held : (m.holds (some id)).getD .absent = .series r := by rw [bound]; rfl
  unfold choose at h
  rw [bind_ok (outcome_getRegister running code), named, held] at h
  rw [bind_ok (outcome_bar now)] at h
  obtain ⟨t, taken, h⟩ := (onStore_reads (holdsAt_reads c bar)).bind_eq_ok h
  obtain ⟨w, m₁, value, h⟩ := outcome_bind_eq_ok h
  obtain ⟨f, filled, h⟩ := (onStore_reads (filled_reads r)).bind_eq_ok h
  cases filled
  refine ⟨t, w, m₁, taken, value, ?_⟩
  obtain ⟨follows, _⟩ := (branchYes.branch branchNo t).keeps _ m sound (by simp)
  have left := (branchYes.branch branchNo t).leaves m
  rw [Computation.leaves] at left
  rw [value] at follows left
  split at h
  next unfilled =>
    have unfilled : ¬ m₁.store.filled r := by simpa [Store.filled] using unfilled
    obtain ⟨u, read, h⟩ := (now_reads w).bind_eq_ok h
    obtain ⟨_, m₂, stored, h⟩ := outcome_bind_eq_ok h
    cases h
    refine ⟨rfl, fun filled => absurd filled unfilled, fun _ x entry => ?_⟩
    have now₁ : m₁.barNow = some (bar : Int) := left.bar.trans now
    obtain ⟨u', read', double⟩ := now_floatAt now₁ entry
    cases read.symm.trans read'
    have bound₁ : m₁.Bound code.id? r := by
      rw [named]
      exact (left.holds id (Nat.le_refl _)).trans bound
    exact ⟨u, double, setRegisterValue_column now₁ bound₁ ((sound.registers _ r bound).spares follows.store) stored⟩
  next filled =>
    cases h
    have filled : m'.store.filled r := by simpa [Store.filled] using filled
    exact ⟨rfl, fun _ => rfl, fun unfilled => absurd filled unfilled⟩

theorem choose_empty (named : code.id? = some id) (now : m.barNow = some (bar : Int))
    (empty : ∀ r, ¬ m.Bound (some id) r)
    (h : outcome (choose scope code inline (.series c) yes no) m = (.ok v, m')) :
    ∃ m₁, outcome (chooseNew inline c yes no) m = (.ok v, m₁) ∧ m'.store = m₁.store := by
  have running : m.barNow.isSome := by rw [now]; rfl
  unfold choose at h
  rw [bind_ok (outcome_getRegister running code), named] at h
  split at h
  next r held =>
    cases kept : m.holds (some id) with
    | none =>
      rw [kept] at held
      cases held
    | some w =>
      rw [kept] at held
      exact absurd (kept.trans (congrArg some held)) (empty r)
  next =>
    obtain ⟨w, m₁, chosen, h⟩ := outcome_bind_eq_ok h
    obtain ⟨rfl, rfl⟩ := setRegister_eq_ok h
    exact ⟨m₁, chosen, store_put ..⟩

theorem choose_entry (named : code.id? = some id) (branchYes : Branch id yes) (branchNo : Branch id no)
    (sound : m.Sound fun _ => False) (opens : m.store.Open (fun _ => False) c) (now : m.barNow = some (bar : Int))
    (low : bar < (m.store.column c).length)
    (h : outcome (choose scope code true (.series c) yes no) m = (.ok v, m')) :
    ∃ path x z, Chosen id c yes no bar m path x z ∧
      (x.isSome → z.isSome → (m'.store.floatAt bar v = x ↔ path.UpToDate bar x z)) := by
  by_cases held : ∃ r, m.Bound (some id) r
  · obtain ⟨r, bound⟩ := held
    obtain ⟨t, w, m₁, taken, value, rfl, filled, unfilled⟩ :=
      choose_held named branchYes branchNo sound now bound h
    by_cases full : m₁.store.filled r
    · cases filled full
      exact ⟨.kept, _, _, .kept bound taken value full, fun _ _ => Iff.rfl⟩
    · refine ⟨.again, _, _, .again bound taken value full, fun some some' => ?_⟩
      obtain ⟨x, entry⟩ := isSome_iff_exists.mp some
      obtain ⟨y, before⟩ := isSome_iff_exists.mp some'
      obtain ⟨u, double, stored⟩ := unfilled full x entry
      rw [entry]
      exact ⟨fun _ => trivial, fun _ => floatAt_set before stored double⟩
  · have empty : ∀ r, ¬ m.Bound (some id) r := fun r bound => held ⟨r, bound⟩
    obtain ⟨m₁, chosen, same⟩ := choose_empty named now empty h
    rw [same]
    obtain ⟨f, filled, chosen⟩ := (onStore_reads (filled_reads c)).bind_eq_ok chosen
    cases filled
    split at chosen
    next filled =>
      obtain ⟨x, z, way, entry⟩ := chooseAll_entry branchYes branchNo sound opens low empty filled chosen
      exact ⟨.whole, x, z, way, fun some some' => ⟨fun _ => trivial, fun _ => entry some some'⟩⟩
    next unfilled =>
      obtain ⟨t, w, m₂, taken, value, entry⟩ := chooseFirst_entry branchYes branchNo sound opens now low chosen
      refine ⟨.first, _, _, .first empty unfilled taken value, fun some _ => ?_⟩
      obtain ⟨x, here⟩ := isSome_iff_exists.mp some
      simpa [here, ChoicePath.UpToDate] using entry x here

theorem branch_child {d : Code} {nodes : List Code} (closed : code.closed) (fit : code.fits nodes)
    (numbered : code.id? = some id) (child : code.Child d) (scope : Scope) : Branch id (eval scope d) := by
  obtain ⟨known, parts⟩ := Code.fits_numbered fit numbered
  have length : (nodes.take id).length = id :=
    List.length_take_of_le (Nat.le_of_lt (List.getElem?_eq_some_iff.mp known).1)
  exact ⟨fun apart => eval_keeps [] scope d (Code.closed_child closed child), length ▸ eval_leaves scope _ d (parts d child)⟩

theorem Branch.asked (branch : Branch id x) {m₁ : Machine} {bar : Int}
    (sound : m.Sound fun _ => False) (now : m.barNow = some bar) (asked : outcome x m = (.ok (.series cond), m₁)) :
    m₁.Sound (fun _ => False) ∧ m₁.store.Open (fun _ => False) cond ∧ m₁.barNow = some bar := by
  obtain ⟨follows, gave⟩ := branch.keeps _ m sound nofun
  have left := branch.leaves m
  rw [Computation.leaves] at left
  rw [asked] at follows gave left
  exact ⟨follows.sound, gave _ rfl cond (List.mem_singleton_self _), left.bar.trans now⟩

/-- An evaluation of a choice on a series at the bar `bar`. The entry that it yields there is the one that the
    branch has which the condition takes, exactly if the way that the evaluation goes keeps it up to date. All
    machines in the run of a compiled script are sound, and all of its code is closed and has numbers that fit. -/
theorem choice_entry {scope : Scope} {line : Line} {id : Nat} {c y e : Code} {nodes : List Code}
    {m m₁ m' : Machine} {cond : SeriesRef} {v : Value} {bar : Nat} (sound : m.Sound fun _ => False)
    (closed : (Code.choice line id c y (some e) true).closed)
    (fit : (Code.choice line id c y (some e) true).fits nodes) (now : m.barNow = some (bar : Int))
    (asked : outcome (eval scope c) m = (.ok (.series cond), m₁)) (low : bar < (m₁.store.column cond).length)
    (given : outcome (eval scope (.choice line id c y (some e) true)) m = (.ok v, m')) :
    ∃ path x z, Chosen id cond (eval scope y) (eval scope e) bar m₁ path x z ∧
      (x.isSome → z.isSome → (m'.store.floatAt bar v = x ↔ path.UpToDate bar x z)) := by
  have branch {d : Code} (child : (Code.choice line id c y (some e) true).Child d) : Branch id (eval scope d) :=
    branch_child closed fit rfl child scope
  obtain ⟨sound₁, opens, now₁⟩ := (branch (.head _)).asked sound now asked
  unfold eval at given
  rw [bind_ok asked] at given
  exact choose_entry rfl (branch (.tail _ (.head _))) (branch (.tail _ (.tail _ (.head _)))) sound₁ opens now₁ low given

def carryText : String :=
  "x = 0.0\nx := close > 2 ? close : x[1]\n"

/-- Whether the third step over a script such as `carryText` comes to a choice that does not hold and yields what
    is not a number, while its second branch has a number. -/
def carriesOld (p : Program) (m₀ : Machine) : Bool :=
  match p.code with
  | .block _ [d, .assign _ _ _ (.choice line id c y (some e) true)] =>
    let scope : Scope := { mutable := p.mutable }
    let m := leaves (eval scope d) m₀
    match outcome (eval scope c) m, outcome (eval scope (.choice line id c y (some e) true)) m with
    | (.ok (.series cond), m₁), (.ok v, m') =>
      match outcome (onStore (cond.holdsAt 2)) m₁, outcome (eval scope e) m₁ with
      | (.ok t, _), (.ok w, m₂) =>
        decide (m.barNow = some 2) && decide (2 < (m₁.store.column cond).length) && !t &&
          (m'.store.floatAt 2 v).any (·.isNaN) && (m₂.store.floatAt 2 w).any (!·.isNaN)
      | _, _ => false
    | _, _ => false
  | _ => false

/-- The evaluation of a choice in the third step over a script such as `carryText`. -/
structure CarriesOld (p : Program) (m₀ : Machine) (line : Line) (id : Nat) (d c y e : Code) (cond : SeriesRef)
    (m m₁ m₂ m' : Machine) (v w : Value) : Prop where
  code : ∃ l l' name target, p.code = .block l [d, .assign l' name target (.choice line id c y (some e) true)]
  defined : m = leaves (eval { mutable := p.mutable } d) m₀
  now : m.barNow = some ((2 : Nat) : Int)
  asked : outcome (eval { mutable := p.mutable } c) m = (.ok (.series cond), m₁)
  low : 2 < (m₁.store.column cond).length
  taken : (outcome (onStore (cond.holdsAt 2)) m₁).1 = .ok false
  value : outcome (eval { mutable := p.mutable } e) m₁ = (.ok w, m₂)
  given : outcome (eval { mutable := p.mutable } (.choice line id c y (some e) true)) m = (.ok v, m')
  yields : ∃ x, m'.store.floatAt 2 v = some x ∧ x.isNaN
  has : ∃ x, m₂.store.floatAt 2 w = some x ∧ x.isNaN = false

theorem carriesOld_spec {p : Program} {m₀ : Machine} (old : carriesOld p m₀) :
    ∃ line id d c y e cond m m₁ m₂ m' v w, CarriesOld p m₀ line id d c y e cond m m₁ m₂ m' v w := by
  unfold carriesOld at old
  split at old
  next l d l' name target line id c y e code =>
    dsimp only at old
    split at old
    next cond m₁ v m' asked h =>
      split at old
      next t m₃ w m₂ taken value =>
        simp only [Bool.and_eq_true, decide_eq_true_eq, Bool.not_eq_true'] at old
        obtain ⟨⟨⟨⟨now, low⟩, held⟩, old⟩, new⟩ := old
        obtain ⟨x, has, number⟩ := (any_eq_true _ _).mp new
        subst held
        exact ⟨line, id, d, c, y, e, cond, _, m₁, m₂, m', v, w, ⟨l, l', name, target, code⟩, rfl, now, asked,
          low, congrArg Prod.fst taken, value, h, (any_eq_true _ _).mp old,
          ⟨x, has, by simpa using number⟩⟩
      next => cases old
    next => cases old
  next => cases old

theorem carryText_carriesOld : ∃ p m₀, compile carryText = .ok p ∧ Reached p m₀ ∧
    ∃ line id d c y e cond m m₁ m₂ m' v w, CarriesOld p m₀ line id d c y e cond m m₁ m₂ m' v w := by
  have run : (ran carryText (.flat [1.0, 10.0, 1.0]) 2).any (fun (p, m) => carriesOld p m) := by decide +kernel
  obtain ⟨⟨p, m₀⟩, h, old⟩ := (any_eq_true _ _).mp run
  obtain ⟨compiled, run⟩ := ran_reached h
  exact ⟨p, m₀, compiled, run, carriesOld_spec old⟩

/-- The choice of `carryText` at its third bar. -/
theorem choice_entry_carryText : ∃ p m line id c y e cond m₁ v m', compile carryText = .ok p ∧
    m.Sound (fun _ => False) ∧ m.barNow = some ((2 : Nat) : Int) ∧
    outcome (eval { mutable := p.mutable } c) m = (.ok (.series cond), m₁) ∧
    outcome (eval { mutable := p.mutable } (.choice line id c y (some e) true)) m = (.ok v, m') ∧
    ∃ path x z, Chosen id cond (eval { mutable := p.mutable } y) (eval { mutable := p.mutable } e) 2 m₁ path x z ∧
      (x.isSome → z.isSome → (m'.store.floatAt 2 v = x ↔ path.UpToDate 2 x z)) := by
  obtain ⟨p, m₀, compiled, run, line, id, d, c, y, e, cond, m, m₁, m₂, m', v, w, old⟩ := carryText_carriesOld
  obtain ⟨_, _, _, _, code⟩ := old.code
  have closed := compile_closed compiled
  obtain ⟨nodes, fit⟩ := compile_fits compiled
  obtain ⟨sound, _⟩ := run.sound closed
  rw [code] at closed fit
  simp only [Code.closed, Code.allClosed, Bool.and_eq_true] at closed
  have sound' : m.Sound fun _ => False := by
    rw [old.defined]
    exact ((eval_keeps [] _ d closed.1).follows sound).sound
  have closed' : (Code.choice line id c y (some e) true).closed := by
    simp only [Code.closed, Bool.and_eq_true]
    exact closed.2.1.2
  have fit' : (Code.choice line id c y (some e) true).fits nodes := fit.2.1.2
  exact ⟨p, m, line, id, c, y, e, cond, m₁, v, m', compiled, sound', old.now, old.asked, old.given,
    choice_entry sound' closed' fit' old.now old.asked old.low old.given⟩

/-- At the third bar the choice of `carryText` takes its second branch, and yields another entry than this has. -/
theorem choice_yields_other_entry : ∃ p m₀, compile carryText = .ok p ∧ Reached p m₀ ∧
    ∃ line id d c y e cond m m₁ m₂ m' v w, CarriesOld p m₀ line id d c y e cond m m₁ m₂ m' v w ∧
      m'.store.floatAt 2 v ≠ m₂.store.floatAt 2 w := by
  obtain ⟨p, m₀, compiled, run, line, id, d, c, y, e, cond, m, m₁, m₂, m', v, w, old⟩ := carryText_carriesOld
  refine ⟨p, m₀, compiled, run, line, id, d, c, y, e, cond, m, m₁, m₂, m', v, w, old, fun same => ?_⟩
  obtain ⟨x, yields, isNaN⟩ := old.yields
  obtain ⟨z, has, number⟩ := old.has
  rw [yields, has] at same
  cases same
  rw [isNaN] at number
  cases number

end Machine

end PineEngine
