import Mathlib.Algebra.Group.Int.Defs
import PineEngine.Proofs.Choices
import PineEngine.Proofs.Rounding

/-! # Choices between blocks

A choice between blocks runs the one that its condition asks for at the current bar, and no other, whether it keeps a
series already or not (`choice_runs_block`). Only an integer beyond all doubles cannot be asked: whether it is a number
is found out with the double that it is.

What the choice yields is the value of the block, except at the bar where it is evaluated first. The series that is
started there has the value at its first bar, and what is not a number elsewhere (`block_entry`).
-/

namespace PineEngine

open Script Computation Store

/-- Whether a truth value or a number holds: it is not zero, and a number. -/
def Value.holds? : Value → Option Bool
  | .bool b | .cell (.bool b) => some b
  | .int n | .cell (.int _ n) => some (n != 0)
  | .float x | .cell (.float x) => some (!(x == 0.0) && !x.isNaN)
  | _ => none

/-- Whether a condition holds at a bar: a truth value or a number, or the entry of a series of such. -/
def Store.holdsAt? (s : Store) (bar : Nat) : Value → Option Bool
  | .series r =>
    match s.column r with
    | ⟨.floats xs, none⟩ => xs[bar]?.bind fun x => (Value.float x).holds?
    | ⟨.ints .long ns, none⟩ => ns[bar]?.map (· != 0)
    | ⟨.bools bs, none⟩ => bs[bar]?
    | _ => none
  | v => v.holds?

def Value.tooLarge : Value → Bool
  | .int n | .cell (.int _ n) => (Decimal.floatOfInt? n).isNone
  | _ => false

namespace Column

theorem finiteFloat_holds (x : Float) : (!(finiteFloat x == 0.0)) = (!(x == 0.0) && !x.isNaN) := by
  have zero : ((0.0 : Float) == 0.0) = true := by decide +kernel
  have large : (largestFloat == 0.0) = false ∧ (-largestFloat == 0.0) = false := by decide +kernel
  unfold finiteFloat
  split
  next none => rw [none, zero, Bool.not_true, Bool.and_false]
  next number =>
    rw [Bool.eq_false_iff.mpr number]
    split
    next infinite =>
      have apart : (x == 0.0) = false := by
        show x.toModel.unpack.beq (.zero .positive) = false
        change x.toModel.unpack.isInf = true at infinite
        generalize x.toModel.unpack = u at infinite
        cases u with
        | infinity s => cases s <;> rfl
        | _ => cases infinite
      rw [apart]
      split
      · rfl
      · rfl
    next => simp

theorem get_flat {cells : Cells} {i : Nat} {v : Value} (found : cells.get? i = some v) (inside : i < cells.size) :
    get ⟨cells, none⟩ i = .ok v := by
  have place : position? cells.size i = some i := position?_natCast.mpr ⟨rfl, inside⟩
  simp only [get, length, size, place, found]

end Column

variable {r : SeriesRef} {s : Store} {t : Bool}

theorem SeriesRef.outcome_holdsAt_cell {bar : Int} {a : Cell} (got : (s.column r).get bar = .ok (.cell a)) :
    outcome (r.holdsAt bar) s =
      (.ok (match a with | .float x => !(Column.finiteFloat x == 0.0) | a => a.isTrue), s) := by
  rw [holdsAt, getFinite, bind_assoc, bind_ok (by rw [outcome_get, got])]
  cases a <;> rfl

theorem Store.entry_of_holdsAt {bar : Nat} (entry : s.holdsAt? bar (.series r) = some t) :
    ∃ a, (s.column r).get bar = .ok (.cell a) ∧ (Value.cell a).holds? = some t := by
  unfold Store.holdsAt? at entry
  dsimp only at entry
  split at entry
  next xs column =>
    obtain ⟨x, found, told⟩ := Option.bind_eq_some_iff.mp entry
    refine ⟨.float x, ?_, told⟩
    rw [column]
    exact Column.get_flat (congrArg (Option.map _) found) (Array.getElem?_eq_some_iff.mp found).1
  next ns column =>
    obtain ⟨n, found, rfl⟩ := Option.map_eq_some_iff.mp entry
    refine ⟨.int .long n, ?_, rfl⟩
    rw [column]
    exact Column.get_flat (congrArg (Option.map _) found) (Array.getElem?_eq_some_iff.mp found).1
  next bs column =>
    refine ⟨.bool t, ?_, rfl⟩
    rw [column]
    exact Column.get_flat (congrArg (Option.map _) entry) (Array.getElem?_eq_some_iff.mp entry).1
  next => cases entry

theorem SeriesRef.outcome_holdsAt_entry {bar : Nat} (entry : s.holdsAt? bar (.series r) = some t) :
    outcome (r.holdsAt bar) s = (.ok t, s) := by
  obtain ⟨a, got, told⟩ := entry_of_holdsAt entry
  rw [outcome_holdsAt_cell got]
  cases a with
  | float x =>
    dsimp only
    rw [Column.finiteFloat_holds]
    cases told
    rfl
  | bool | int =>
    cases told
    rfl
  | text => cases told

namespace Machine

theorem conditionHolds_number {v : Value} (told : v.holds? = some t) :
    conditionHolds v = if v.tooLarge then .error .overflow else .ok t := by
  have whole (n : Int) (isTrue : v.isTrue = (n != 0)) (isNaN : v.isNaN = (Value.floatOfInt n).map Float.isNaN) :
      conditionHolds v = if (Decimal.floatOfInt? n).isNone then .error .overflow else .ok (n != 0) := by
    rw [conditionHolds, isTrue, isNaN]
    unfold Value.floatOfInt
    cases converted : Decimal.floatOfInt? n with
    | some x =>
      have number : x.isNaN = false := Decimal.isNaN_floatOfInt converted
      simp only [Except.map, number]
      cases n != 0 <;> rfl
    | none =>
      have nonzero : (n != 0) = true := by
        rw [bne_iff_ne]
        rintro rfl
        obtain ⟨x, zero⟩ := Decimal.floatOfInt_ok (n := 0) (by decide)
        cases zero.symm.trans converted
      rw [nonzero]
      rfl
  have double (x : Float) (isTrue : v.isTrue = !(x == 0.0)) (isNaN : v.isNaN = .ok x.isNaN) :
      conditionHolds v = .ok (!(x == 0.0) && !x.isNaN) := by
    rw [conditionHolds, isTrue, isNaN]
    cases (!(x == 0.0)) <;> rfl
  have truth (b : Bool) (isTrue : v.isTrue = b) (isNaN : v.isNaN = .ok (if b then (1.0 : Float) else 0.0).isNaN) :
      conditionHolds v = .ok b := by
    have number : (1.0 : Float).isNaN = false := by decide +kernel
    rw [conditionHolds, isTrue, isNaN]
    cases b with
    | false => rfl
    | true =>
      rfl
  unfold Value.holds? at told
  split at told <;> cases told
  · exact truth _ rfl rfl
  · exact truth _ rfl rfl
  · exact whole _ rfl rfl
  · exact whole _ rfl rfl
  · exact double _ rfl rfl
  · exact double _ rfl rfl

variable {m m' : Machine} {bar : Nat} {scope : Scope} {code : Code} {cond : Value} {t : Bool}

/-- What a choice makes of the value of its block: it sets the entry of the series that it keeps, or starts one. A
    choice on a single condition yields the value. -/
def settle (scope : Scope) (code : Code) (cond held v : Value) : MachineM Value := do
  match cond with
  | .series c =>
    match held with
    | .series r => do
      if !(← onStore r.filled) then
        setRegisterValue code (← now v)
      pure (.series r)
    | _ => do setRegister scope code (.series (← started c v))
  | _ => pure v

theorem choose_single (told : cond.holds? = some t) (yes no : MachineM Value) :
    outcome (choose scope code false cond yes no) m =
      if cond.tooLarge then (.error .overflow, m) else outcome (branch t yes no) m := by
  have single : choose scope code false cond yes no = (do if ← conditionHolds cond then yes else no : MachineM Value) := by
    cases cond with
    | series r => cases told
    | _ => rfl
  rw [single, conditionHolds_number told]
  split
  · exact bind_error (outcome_liftM ..)
  · rfl

theorem choose_series {c : SeriesRef} (now : m.barNow = some (bar : Int))
    (told : m.store.holdsAt? bar (.series c) = some t) (yes no : MachineM Value) :
    outcome (choose scope code false (.series c) yes no) m =
      outcome (branch t yes no >>= settle scope code (.series c) ((m.holds code.id?).getD .absent)) m := by
  have running : m.barNow.isSome := by rw [now]; rfl
  have holds : outcome (onStore (c.holdsAt bar)) m = (.ok t, m) := by
    rw [outcome_onStore, SeriesRef.outcome_holdsAt_entry told]
  unfold choose
  rw [bind_ok (outcome_getRegister running code)]
  generalize (m.holds code.id?).getD .absent = held
  have started : outcome (chooseNew false c yes no >>= setRegister scope code) m =
      outcome (do
        let v ← branch t yes no
        setRegister scope code (.series (← started c v))) m := by
    rw [show chooseNew false c yes no = chooseFirst c yes no by unfold chooseNew; rfl, chooseFirst, bind_assoc,
      bind_ok (outcome_bar now), bind_assoc, bind_ok holds]
    simp only [bind_assoc, pure_bind]
  cases held with
  | series r =>
    rw [bind_ok (outcome_bar now), bind_ok holds]
    rfl
  | _ => exact started

theorem choose_runs (now : m.barNow = some (bar : Int)) (told : m.store.holdsAt? bar cond = some t)
    (yes no : MachineM Value) : outcome (choose scope code false cond yes no) m =
      if cond.tooLarge then (.error .overflow, m)
      else outcome (branch t yes no >>= settle scope code cond ((m.holds code.id?).getD .absent)) m := by
  by_cases series : ∃ r, cond = .series r
  · obtain ⟨r, rfl⟩ := series
    exact choose_series now told yes no
  · have plain (held : Value) : cond.holds? = some t ∧ settle scope code cond held = pure := by
      cases cond with
      | series r => exact (series ⟨r, rfl⟩).elim
      | _ => exact ⟨told, rfl⟩
    rw [choose_single (plain .absent).1, (plain _).2, bind_pure]

theorem choice_enters {line : Line} {id : Nat} {c y : Code} {e : Option Code} {m₁ : Machine}
    (asked : outcome (eval scope c) m = (.ok cond, m₁)) : outcome (eval scope (.choice line id c y e false)) m =
      outcome (choose scope (.choice line id c y e false) false cond (eval scope y)
        (e.elim (pure .absent) (eval scope))) m₁ := by
  cases e <;> rw [eval, bind_ok asked] <;> rfl

/-- A script that reaches its inner choice at the second bar first, if prices rise. -/
def nestedText : String :=
  "if close > 2\n    if close > 3\n        close\n    else\n        open\nelse\n    0.0\n"

/-- The first evaluation of the inner choice of a script such as `nestedText`, at the second bar. -/
structure ReachesInner (p : Program) (m : Machine) (outer inner : Line × Nat) (c c' y e : Code) (no : Option Code)
    (cond : Value) (cond' : SeriesRef) (m₁ m₂ m₃ m' : Machine) (v w : Value) : Prop where
  code : ∃ l l', p.code = .block l [.choice outer.1 outer.2 c
    (.block l' [.choice inner.1 inner.2 c' y (some e) false]) no false]
  asked : outcome (eval { mutable := p.mutable } c) m = (.ok cond, m₁)
  now : m₁.barNow = some ((1 : Nat) : Int)
  told : m₁.store.holdsAt? 1 cond = some true
  asked' : outcome (eval { mutable := p.mutable } c') m₁ = (.ok (.series cond'), m₂)
  low : 1 < (m₂.store.column cond').length
  taken : outcome (onStore (cond'.holdsAt 1)) m₂ = (.ok true, m₂)
  value : outcome (eval { mutable := p.mutable } y) m₂ = (.ok w, m₃)
  given : outcome (eval { mutable := p.mutable } (.choice inner.1 inner.2 c' y (some e) false)) m₁ = (.ok v, m')
  yields : ∃ x, m'.store.floatAt 1 v = some x ∧ x.isNaN
  has : ∃ x, m₃.store.floatAt 1 w = some x ∧ x.isNaN = false

/-- Whether the second step over a script comes to an inner choice in this way. -/
def reachesInner (p : Program) (m : Machine) : Bool :=
  match p.code with
  | .block _ [.choice _ _ c (.block _ [.choice line id c' y (some e) false]) _ false] =>
    let scope : Scope := { mutable := p.mutable }
    match outcome (eval scope c) m with
    | (.ok cond, m₁) =>
      match outcome (eval scope c') m₁, outcome (eval scope (.choice line id c' y (some e) false)) m₁ with
      | (.ok (.series cond'), m₂), (.ok v, m') =>
        match outcome (eval scope y) m₂ with
        | (.ok w, m₃) =>
          decide (m₁.barNow = some 1) && decide (m₁.store.holdsAt? 1 cond = some true) &&
            decide (1 < (m₂.store.column cond').length) && decide (m₂.store.holdsAt? 1 (.series cond') = some true) &&
            (m'.store.floatAt 1 v).any (·.isNaN) && (m₃.store.floatAt 1 w).any (!·.isNaN)
        | _ => false
      | _, _ => false
    | _ => false
  | _ => false

theorem reachesInner_spec {p : Program} (reaches : reachesInner p m) :
    ∃ outer inner c c' y e no cond cond' m₁ m₂ m₃ m' v w,
      ReachesInner p m outer inner c c' y e no cond cond' m₁ m₂ m₃ m' v w := by
  unfold reachesInner at reaches
  split at reaches
  next l lo io c l' line id c' y e no code =>
    dsimp only at reaches
    split at reaches
    next cond m₁ asked =>
      split at reaches
      next cond' m₂ v m' asked' h =>
        split at reaches
        next w m₃ value =>
          simp only [Bool.and_eq_true, decide_eq_true_eq] at reaches
          obtain ⟨⟨⟨⟨⟨now, told⟩, low⟩, holds⟩, yields⟩, has⟩ := reaches
          obtain ⟨x, has, number⟩ := (Option.any_eq_true _ _).mp has
          have taken : outcome (onStore (cond'.holdsAt 1)) m₂ = (.ok true, m₂) := by
            rw [outcome_onStore, show (1 : Int) = (1 : Nat) from rfl, SeriesRef.outcome_holdsAt_entry holds]
          refine ⟨(lo, io), (line, id), c, c', y, e, no, cond, cond', m₁, m₂, m₃, m', v, w, ?_⟩
          exact ⟨⟨l, l', code⟩, asked, now, told, asked', low, taken, value, h, (Option.any_eq_true _ _).mp yields,
            ⟨x, has, by simpa using number⟩⟩
        next => cases reaches
      next => cases reaches
    next => cases reaches
  next => cases reaches

theorem nestedText_reachesInner : ∃ p m, compile nestedText = .ok p ∧ Reached p m ∧
    ∃ outer inner c c' y e no cond cond' m₁ m₂ m₃ m' v w,
      ReachesInner p m outer inner c c' y e no cond cond' m₁ m₂ m₃ m' v w := by
  have run : (ran nestedText (.flat [1.0, 10.0]) 1).any (fun (p, m) => reachesInner p m) := by decide +kernel
  obtain ⟨⟨p, m⟩, h, reaches⟩ := (Option.any_eq_true _ _).mp run
  obtain ⟨compiled, run⟩ := ran_reached h
  exact ⟨p, m, compiled, run, reachesInner_spec reaches⟩

/-- Let the condition of a choice between blocks be a truth value or a number, or a series of such, and let `t` tell
    whether it holds at the bar. After the condition was evaluated, the block that it asks for is evaluated, once, and
    nothing else is: what its value is used for does not depend on code. This fails for an integer beyond all
    doubles. -/
theorem choice_runs_block {scope : Scope} {line : Line} {id : Nat} {c y : Code} {e : Option Code} {m m₁ : Machine}
    {cond : Value} {bar : Nat} {t : Bool} (asked : outcome (eval scope c) m = (.ok cond, m₁))
    (now : m₁.barNow = some (bar : Int)) (told : m₁.store.holdsAt? bar cond = some t) :
    outcome (eval scope (.choice line id c y e false)) m =
      if cond.tooLarge then (.error .overflow, m₁)
      else outcome (do
        let v ← branch t (eval scope y) (e.elim (pure .absent) (eval scope))
        settle scope (.choice line id c y e false) cond ((m₁.holds (some id)).getD .absent) v) m₁ := by
  rw [choice_enters asked]
  exact choose_runs now told _ _

/-- The outer choice of `nestedText` at the second bar. -/
theorem choice_runs_block_nestedText : ∃ p m l line id c y e cond m₁, compile nestedText = .ok p ∧ Reached p m ∧
    p.code = .block l [.choice line id c y e false] ∧
    outcome (eval { mutable := p.mutable } c) m = (.ok cond, m₁) ∧ m₁.barNow = some ((1 : Nat) : Int) ∧
    m₁.store.holdsAt? 1 cond = some true ∧
    outcome (eval { mutable := p.mutable } (.choice line id c y e false)) m =
      if cond.tooLarge then (.error .overflow, m₁)
      else outcome (do
        let v ← branch true (eval { mutable := p.mutable } y) (e.elim (pure .absent) (eval { mutable := p.mutable }))
        settle { mutable := p.mutable } (.choice line id c y e false) cond ((m₁.holds (some id)).getD .absent) v) m₁ := by
  obtain ⟨p, m, compiled, run, outer, inner, c, c', y, e, no, cond, _, m₁, _, _, _, _, _, reached⟩ :=
    nestedText_reachesInner
  obtain ⟨l, l', code⟩ := reached.code
  exact ⟨p, m, l, outer.1, outer.2, c, _, no, cond, m₁, compiled, run, code, reached.asked, reached.now, reached.told,
    choice_runs_block reached.asked reached.now reached.told⟩

/-- An integer of four hundred digits is not zero, and no block runs. -/
theorem huge_condition_fails : (Value.int (10 ^ 400)).holds? = some true ∧
    ∀ (scope : Scope) (line : Line) (id : Nat) (y : Code) (e : Option Code) (m : Machine),
      outcome (eval scope (.choice line id (.literal line (.int (10 ^ 400))) y e false)) m = (.error .overflow, m) := by
  have told : (Value.int (10 ^ 400)).holds? = some true := by decide +kernel
  have large : (Value.int (10 ^ 400)).tooLarge := by decide +kernel
  refine ⟨told, fun scope line id y e m => ?_⟩
  have asked : outcome (eval scope (.literal line (.int (10 ^ 400)))) m = (.ok (.int (10 ^ 400)), m) := by
    rfl
  rw [choice_enters asked, choose_single told, if_pos large]

/-- An evaluation of a choice between blocks on a series, of which the chosen block has the double `x` at the bar. If
    the choice keeps no series yet, it yields `x` at the first bar only, or if `x` is not a number. If it keeps one that
    is not valid at all bars, `x` is stored in it as its kind allows; else the series stays as it is. -/
theorem block_entry {scope : Scope} {line : Line} {id : Nat} {c y : Code} {e : Option Code} {nodes : List Code}
    {m m₁ m' : Machine} {cond : SeriesRef} {v : Value} {bar : Nat} (sound : m.Sound fun _ => False)
    (closed : (Code.choice line id c y e false).closed) (fit : (Code.choice line id c y e false).fits nodes)
    (now : m.barNow = some (bar : Int)) (asked : outcome (eval scope c) m = (.ok (.series cond), m₁))
    (low : bar < (m₁.store.column cond).length)
    (given : outcome (eval scope (.choice line id c y e false)) m = (.ok v, m')) :
    ∃ t w m₂, outcome (onStore (cond.holdsAt bar)) m₁ = (.ok t, m₁) ∧
      outcome (branch t (eval scope y) (e.elim (pure .absent) (eval scope))) m₁ = (.ok w, m₂) ∧
      ∀ x, m₂.store.floatAt bar w = some x →
        ((∀ r, ¬ m₁.Bound (some id) r) → (m'.store.floatAt bar v = some x ↔ bar = 0 ∨ x = notANumber)) ∧
        ∀ r, m₁.Bound (some id) r → v = .series r ∧ (m₂.store.filled r → m' = m₂) ∧
          (¬ m₂.store.filled r → (∃ u, Cells.floatCell u = .ok x ∧
              (m₂.store.column r).set bar u = .ok (m'.store.column r)) ∧
            ((m₂.store.floatAt bar (.series r)).isSome → m'.store.floatAt bar v = some x)) := by
  have block {d : Code} (child : (Code.choice line id c y e false).Child d) : Branch id (eval scope d) :=
    branch_child closed fit rfl child scope
  have yes : Branch id (eval scope y) := block (.tail _ (.head _))
  have other : Branch id (e.elim (pure .absent) (eval scope)) := by
    cases e with
    | none => exact ⟨fun _ => .pure (fun r among => Value.noConfusion (List.mem_singleton.mp among)), .pure _⟩
    | some e => exact block (.tail _ (.tail _ (.head _)))
  obtain ⟨sound₁, opens, now₁⟩ := (block (.head _)).asked sound now asked
  rw [choice_enters asked] at given
  by_cases held : ∃ r, m₁.Bound (some id) r
  · obtain ⟨r, bound⟩ := held
    obtain ⟨t, w, m₂, taken, value, rfl, filled, unfilled⟩ :=
      choose_held rfl yes other sound₁ now₁ bound given
    refine ⟨t, w, m₂, taken, value, fun x entry => ⟨fun empty => absurd bound (empty r), fun r' bound' => ?_⟩⟩
    cases bound.symm.trans bound'
    refine ⟨rfl, filled, fun full => ?_⟩
    obtain ⟨u, double, stored⟩ := unfilled full x entry
    refine ⟨⟨u, double, stored⟩, fun before => ?_⟩
    obtain ⟨z, before⟩ := Option.isSome_iff_exists.mp before
    exact Column.floatAt_set before stored double
  · have empty : ∀ r, ¬ m₁.Bound (some id) r := fun r bound => held ⟨r, bound⟩
    obtain ⟨m₃, chosen, same⟩ := choose_empty rfl now₁ empty given
    obtain ⟨t, w, m₂, taken, value, entry⟩ := chooseFirst_entry yes other sound₁ opens now₁ low chosen
    refine ⟨t, w, m₂, taken, value, fun x here => ⟨fun _ => ?_, fun r bound => absurd bound (empty r)⟩⟩
    rw [same]
    exact entry x here

/-- The inner choice of `nestedText` at the second bar. -/
theorem block_entry_nestedText : ∃ p m line id c y e cond m₁ v m', compile nestedText = .ok p ∧
    m.Sound (fun _ => False) ∧ m.barNow = some ((1 : Nat) : Int) ∧
    outcome (eval { mutable := p.mutable } c) m = (.ok (.series cond), m₁) ∧
    outcome (eval { mutable := p.mutable } (.choice line id c y (some e) false)) m = (.ok v, m') ∧
    ∃ t w m₂, outcome (onStore (cond.holdsAt 1)) m₁ = (.ok t, m₁) ∧
      outcome (branch t (eval { mutable := p.mutable } y) (eval { mutable := p.mutable } e)) m₁ = (.ok w, m₂) ∧
      ∀ x, m₂.store.floatAt 1 w = some x → (∀ r, ¬ m₁.Bound (some id) r) →
        (m'.store.floatAt 1 v = some x ↔ x = notANumber) := by
  obtain ⟨p, m, compiled, run, outer, inner, c, c', y, e, no, cond, cond', m₁, m₂, m₃, m', v, w, reached⟩ :=
    nestedText_reachesInner
  obtain ⟨_, _, code⟩ := reached.code
  have closed := compile_closed compiled
  obtain ⟨nodes, fit⟩ := compile_fits compiled
  obtain ⟨sound, _⟩ := run.sound closed
  rw [code] at closed fit
  have parts : c.closed ∧ (Code.choice inner.1 inner.2 c' y (some e) false).closed ∧
      (Code.choice inner.1 inner.2 c' y (some e) false).fits (nodes.take outer.2) := by
    cases no <;> simp only [Code.closed, Code.allClosed, Code.fits, Code.allFit, Bool.and_eq_true] at closed fit ⊢
    · exact ⟨closed.1.1, closed.1.2.1, fit.1.2.2.1⟩
    · exact ⟨closed.1.1.1, closed.1.1.2.1, fit.1.2.2.1.1⟩
  have sound' : m₁.Sound fun _ => False := by
    have follows := (eval_keeps [] { mutable := p.mutable } c parts.1).follows sound
    rw [leaves, reached.asked] at follows
    exact follows.sound
  obtain ⟨t, w, m₂, taken, value, entry⟩ :=
    block_entry sound' parts.2.1 parts.2.2 reached.now reached.asked' reached.low reached.given
  refine ⟨p, m₁, inner.1, inner.2, c', y, e, cond', _, v, m', compiled, sound', reached.now, reached.asked', reached.given,
    t, w, m₂, taken, value, fun x here empty => ?_⟩
  simpa using (entry x here).1 empty

/-- At the second bar the inner choice of `nestedText` takes its first block, and yields another entry than this has. -/
theorem block_yields_other_entry : ∃ p m, compile nestedText = .ok p ∧ Reached p m ∧
    ∃ outer inner c c' y e no cond cond' m₁ m₂ m₃ m' v w,
      ReachesInner p m outer inner c c' y e no cond cond' m₁ m₂ m₃ m' v w ∧
        m'.store.floatAt 1 v ≠ m₃.store.floatAt 1 w := by
  obtain ⟨p, m, compiled, run, outer, inner, c, c', y, e, no, cond, cond', m₁, m₂, m₃, m', v, w, reached⟩ :=
    nestedText_reachesInner
  refine ⟨p, m, compiled, run, outer, inner, c, c', y, e, no, cond, cond', m₁, m₂, m₃, m', v, w, reached, fun same => ?_⟩
  obtain ⟨x, yields, isNaN⟩ := reached.yields
  obtain ⟨z, has, number⟩ := reached.has
  rw [yields, has] at same
  cases same
  rw [isNaN] at number
  cases number

end Machine

end PineEngine
