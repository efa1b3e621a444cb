import PineEngine.Proofs.Occasions

/-! # What evaluation leaves alone

A series that is valid to its end is not out of date at any bar, so no definition, choice or built-in variable that
keeps it writes to it. A loop counts with single cells only. An assignment could write to it, but only if the series
is kept for a definition that was noted. So evaluation leaves a series alone that is valid to its end, has more than
one cell and is kept for no definition that some assignment changes (`Machine.rests_permits`).
-/

namespace PineEngine.Machine

open Script Builtin Computation Store

/-- A series that is known past the current bar, to its end, and that is kept for none of the definitions with the
    given numbers. If there may be a loop, it has more than one cell. -/
structure AtRest (ids : List Nat) (counts : Prop) (r : SeriesRef) (m : Machine) : Prop where
  straight : m.store.Straight
  present : r.id < m.store.series.size
  many : counts → 2 ≤ (m.store.column r).size
  full : m.store.filled r
  reached : ∀ bar, m.barNow = some bar → bar < m.store.valid r
  fixed : ∀ id ∈ ids, ¬ m.Bound (some id) r

structure Rests (ids : List Nat) (counts : Prop) (r : SeriesRef) (m m' : Machine) : Prop where
  atRest : m'.AtRest ids counts r
  head : m'.store.head r = m.store.head r
  column : m'.store.column r = m.store.column r

variable {ids : List Nat} {counts : Prop} {r : SeriesRef} {m m' m'' : Machine}

theorem Rests.refl (settled : m.AtRest ids counts r) : Rests ids counts r m m :=
  ⟨settled, rfl, rfl⟩

theorem Rests.trans (first : Rests ids counts r m m') (second : Rests ids counts r m' m'') : Rests ids counts r m m'' :=
  ⟨second.atRest, second.head.trans first.head, second.column.trans first.column⟩

theorem AtRest.rests (settled : m.AtRest ids counts r) (straight : m'.store.Straight)
    (size : m.store.series.size ≤ m'.store.series.size)
    (same : m'.store.head r = m.store.head r ∧ m'.store.column r = m.store.column r) (bar : m'.barNow = m.barNow)
    (fixed : ∀ id ∈ ids, m'.Bound (some id) r → m.Bound (some id) r) : Rests ids counts r m m' := by
  obtain ⟨head, column⟩ := same
  have valid : m'.store.valid r = m.store.valid r := congrArg SeriesHead.valid head
  refine ⟨⟨straight, Nat.lt_of_lt_of_le settled.present size, ?_, ?_, ?_, ?_⟩, head, column⟩
  · rw [column]
    exact settled.many
  · rw [filled, valid, column]
    exact settled.full
  · rw [bar, valid]
    exact settled.reached
  · exact fun id mem bound => settled.fixed id mem (fixed id mem bound)

theorem AtRest.quiet (settled : m.AtRest ids counts r) (quiet : m.Quiet m') : Rests ids counts r m m' := by
  have inside := settled.straight.inside settled.present
  refine settled.rests (quiet.store.straight settled.straight) quiet.store.series.size_le
    ⟨quiet.store.head_eq settled.present, quiet.store.column_eq settled.present inside⟩ ?_ fun id _ bound => ?_
  · rw [barNow, quiet.context, barNow]
  · rw [Bound, holds, quiet.context] at bound
    exact bound

def Resting (ids : List Nat) (counts : Prop) (r : SeriesRef) (m m' : Machine) : Prop :=
  m.AtRest ids counts r → Rests ids counts r m m'

variable {r' : SeriesRef} {code : Code} {v : Value} {s : Store}

theorem AtRest.put (atRest : m.AtRest ids counts r) (apart : ∀ id ∈ ids, code.id? = some id → v ≠ .series r) :
    Rests ids counts r m (m.put code v) := by
  refine atRest.rests atRest.straight (Nat.le_refl _) ⟨rfl, rfl⟩ (barNow_put m code v) fun id mem bound => ?_
  exact (holds_of_put bound).resolve_left fun ⟨same, value⟩ => apart id mem same value

theorem AtRest.touches (atRest : m.AtRest ids counts r) (touches : m.store.Touches r' s)
    (present : r'.id < m.store.series.size) (other : r' ≠ r) : Rests ids counts r m { m with store := s } :=
  atRest.rests (touches.straight atRest.straight) (Nat.le_of_eq touches.size.symm)
    (touches.other atRest.straight atRest.present present other) rfl fun _ _ bound => bound

theorem AtRest.ne_of_new (atRest : m.AtRest ids counts r) (new : m.store.series.size ≤ r'.id) : r' ≠ r := by
  rintro rfl
  exact Nat.not_lt.mpr new atRest.present

theorem Made.ne (made : Made (Resting ids counts r) m m' r') (atRest : m.AtRest ids counts r) : r' ≠ r := by
  obtain ⟨before, _, added, _⟩ := made
  exact (before atRest).atRest.ne_of_new added.series

theorem Stale.ne {id : Option Nat} (stale : Stale ids m m' id r') (bound : m'.Bound id r')
    (atRest : m.AtRest ids counts r) (after : m'.AtRest ids counts r) : r' ≠ r := by
  rintro rfl
  cases stale with
  | late now old =>
    have := atRest.reached _ now
    omega
  | unfilled unfilled => exact Bool.false_ne_true (unfilled.symm.trans after.full)
  | assigned mem number => exact after.fixed _ mem (number ▸ bound)

theorem storeAt_touches (bar : Int) (v : Value) (m : Machine) :
    ∃ s, leaves (storeAt r bar v) m = { m with store := s } ∧ m.store.Touches r s := by
  refine leaves_bind (P := fun m' : Machine => ∃ s, m' = { m with store := s } ∧ m.store.Touches r s) ?_ ?_
  · rw [leaves, outcome_onStore]
    exact ⟨_, rfl, set_touches bar v m.store⟩
  · rintro _ m' _ ⟨s, rfl, touches⟩
    rw [leaves, outcome_onStore]
    exact ⟨_, rfl, Trans.trans touches (setValid_touches bar s)⟩

theorem rests_permits (nodes : List Code) (ids : List Nat) (counts : Prop) (r : SeriesRef) :
    Permits nodes ids counts (Resting ids counts r) where
  refl _ := .refl
  trans first second atRest := (first atRest).trans (second (first atRest).atRest)
  quiet quiet atRest := atRest.quiet quiet
  builtin {_ _ _ _ _ r'} _ first start atRest := by
    refine atRest.put fun _ _ _ same => ?_
    cases same
    have := atRest.reached 0 first
    omega
  define _ _ fixed _ before _ _ atRest := by
    refine (before atRest).trans ((before atRest).atRest.put ?_)
    rintro _ mem ⟨⟩
    exact (fixed mem).elim
  alloc {m _ _ _ _ c} _ _ _ _ atRest := by
    have grown := atRest.quiet (Tolerant.store m (alloc_grows m.store c (-1) .plain) : m.Quiet _)
    refine grown.trans (grown.atRest.put fun _ _ _ same => ?_)
    exact atRest.ne_of_new (Nat.le_refl _) (Value.series.inj same)
  choose _ _ before made atRest := by
    refine (before atRest).trans ((before atRest).atRest.put fun _ _ _ same => ?_)
    exact made.ne atRest (Value.series.inj same)
  fill before made present touches _ atRest :=
    (before atRest).trans ((before atRest).atRest.touches touches present (made.ne atRest))
  write {m m' _ r' bar} before present _ stale bound v atRest := by
    have after := (before atRest).atRest
    obtain ⟨s, same, touches⟩ := storeAt_touches (r := r') bar v m'
    rw [same]
    exact (before atRest).trans (after.touches touches present (stale.ne bound atRest after))
  count _ looping _ _ single before counted atRest := by
    refine (before atRest).trans ((before atRest).atRest.put fun _ _ _ same => ?_)
    subst same
    rcases counted with rfl | ⟨plain, _⟩
    · obtain ⟨m₁, between, single⟩ := single r rfl
      have many := (between atRest).atRest.many looping
      have := single.size
      omega
    · exact plain r rfl
  advance {m r'} looping present single up atRest := by
    rw [Machine.advance, leaves_bind_pure, leaves, outcome_onStore]
    refine atRest.touches (update_touches _ m.store) present ?_
    rintro rfl
    have many := atRest.many looping
    have := single.size
    omega

end PineEngine.Machine
