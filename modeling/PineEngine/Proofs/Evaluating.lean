import PineEngine.Proofs.Linking
import PineEngine.Proofs.Storing

/-! # What evaluation respects

Besides what is built in, an evaluation writes entries into series, and keeps values for built-in variables, definitions
and choices. A relation that allows for these steps is respected by the evaluation of all code (`Machine.eval_obeys`).
-/

namespace PineEngine

open Script Builtin Computation Store

namespace Column

/-- A column is of the kind of another one, and has its shape. -/
structure SameForm (c c' : Column) : Prop where
  kind : c'.cells.kind = c.cells.kind
  rows : c'.rowLen = c.rowLen
  length : c'.length = c.length

instance : Std.Refl SameForm :=
  ⟨fun _ => ⟨rfl, rfl, rfl⟩⟩

instance : Trans SameForm SameForm SameForm :=
  ⟨fun first second => ⟨second.kind.trans first.kind, second.rows.trans first.rows, second.length.trans first.length⟩⟩

theorem set_form {c c' : Column} {i : Int} {v : Value} (h : c.set i v = .ok c') : c.SameForm c' := by
  have length := set_length h
  unfold set at h
  split at h
  next => cases h
  next k _ =>
    split at h
    next flat =>
      obtain ⟨cs, stored, rfl⟩ := map_eq_ok h
      have agrees : Cells.AgreeBut (fun _ => True) c.cells cs := Cells.set_agrees stored trivial
      exact ⟨agrees.kind, rfl, length⟩
    next n whole =>
      obtain ⟨row, _, cs, stored, h⟩ := bind₂_eq_ok h
      cases h
      have agrees : Cells.AgreeBut (fun _ => True) c.cells cs := Cells.setAll_agrees stored fun _ _ => trivial
      exact ⟨agrees.kind, rfl, length⟩

theorem count_form {op : ArithOp} {c next : Column} (h : (do
      let next ← Column.arith op (.column c) (.single (.int 1))
      if next.cells.kind == c.cells.kind then pure next else .error .operands) = .ok next) : c.SameForm next := by
  obtain ⟨next', counted, h⟩ := bind_eq_ok h
  split at h
  next same =>
    cases h
    obtain ⟨ps, rowLen, met, rows, _⟩ := arith_shape counted
    refine ⟨eq_of_beq same, rows.trans ?_, arith_length counted⟩
    cases whole : c.rowLen <;> simp [pairs, Operand.shape, whole, stretch, stretchReversed] at met <;> exact met.2.symm
  next => cases h

end Column

namespace Store

/-- No series is lost. Each is still of its origin, and its column is of the kind and the shape that it was. -/
structure Revises (s s' : Store) : Prop where
  heads : Carried (fun h h' => h'.origin = h.origin ∧ h'.column = h.column) s.series s'.series
  columns : Carried Column.SameForm s.columns s'.columns

instance : Std.Refl Revises :=
  ⟨fun _ => ⟨fun _ h here => ⟨h, here, rfl, rfl⟩, .refl _⟩⟩

instance : Trans Revises Revises Revises :=
  ⟨fun first second => ⟨first.heads.comp second.heads fun same same' => ⟨same'.1.trans same.1, same'.2.trans same.2⟩,
    first.columns.trans second.columns⟩⟩

theorem Grows.revises {s s' : Store} (grows : s.Grows s') : s.Revises s' :=
  ⟨grows.series.of_eq fun _ => ⟨rfl, rfl⟩, grows.columns.of_eq Std.Refl.refl⟩

theorem setColumn_revises {s : Store} {r : SeriesRef} {c : Column} (same : (s.column r).SameForm c) :
    s.Revises (s.setColumn r c) := by
  refine ⟨(Std.Refl.refl s : s.Revises s).heads, Carried.set (.refl _) fun c' here => ?_⟩
  rw [show s.column r = c' by simp [Store.column, here]] at same
  exact same

theorem setValid_revises (s : Store) (r : SeriesRef) (valid : Int) : s.Revises (s.setValid r valid) :=
  ⟨Carried.set (Std.Refl.refl s : s.Revises s).heads fun h here => by
    rw [head_of_series here]
    exact ⟨rfl, rfl⟩, .refl _⟩

end Store

namespace SeriesRef

variable (r : SeriesRef)

theorem setValid_revises (valid : Int) : Obeys Revises (r.setValid valid) :=
  fun s => Store.setValid_revises s r valid

theorem update_revises {f : Column → Except Fault Column} (same : ∀ c c', f c = .ok c' → c.SameForm c') :
    Obeys Revises (r.update f) :=
  update_obeys fun _ _ made => setColumn_revises (same _ _ made)

theorem set_revises (i : Int) (v : Value) : Obeys Revises (r.set i v) :=
  update_revises r fun _ _ => Column.set_form

theorem replaceUnless_revises (cond other : SeriesRef) (n : Nat) : Obeys Revises (r.replaceUnless cond other n) :=
  replaceUnless_obeys (set_revises r) cond other n

end SeriesRef

namespace Machine

/-- Relations that allow for writing into series. -/
class Writing (R : Machine → Machine → Prop) : Prop extends Tolerant R where
  write (m : Machine) {s : Store} (revises : m.store.Revises s) : R m { m with store := s }

/-- Relations that allow for every step of an evaluation of the given nodes. -/
class Evaluating (nodes : List Code) (R : Machine → Machine → Prop) : Prop extends Writing R where
  put (m : Machine) {code : Code} {id : Nat} (known : nodes[id]? = some code) (numbered : code.id? = some id)
    (own : ∀ line name v, code ≠ .builtin line id name v) (v : Value) : R m (m.put code v)
  builtin (scope : Scope) {line : Line} {id : Nat} {name : String} {v : Variable}
    (known : nodes[id]? = some (.builtin line id name v)) :
    Obeys R (builtinVariable scope (.builtin line id name v) v)

variable {R : Machine → Machine → Prop}

theorem onStore_obeys [Writing R] {α : Type} {x : SeriesM α} (revises : Obeys Revises x) : Obeys R (onStore x) := by
  intro m
  rw [leaves, outcome_onStore]
  exact Writing.write m (revises m.store)

theorem setRegister_obeys (scope : Scope) {code : Code} {v : Value} (put : ∀ m, R m (m.put code v)) :
    Obeys R (setRegister scope code v) :=
  fun m => leaves_setRegister scope code v m ▸ put m

variable [Std.Refl R] [Trans R R R]

section Steps

variable [Writing R]

theorem setRegisterValue_obeys (code : Code) (v : Value) : Obeys R (setRegisterValue code v) :=
  .bind (.of_reads current_reads) fun c => by
    split
    · exact .throw _
    · exact .bind (onStore_obeys (SeriesRef.set_revises _ _ _)) fun _ => onStore_obeys (SeriesRef.setValid_revises _ _)
    · exact .throw _

theorem advance_obeys (up : Bool) (counter : Value) : Obeys R (advance up counter) := by
  unfold advance
  dsimp only
  split
  · exact .bind (onStore_obeys (SeriesRef.update_revises _ fun _ _ => Column.count_form)) fun _ => .pure _
  · exact .of_reads lift_reads

theorem obeys_walkClosed (R : Machine → Machine → Prop) [Writing R] [Std.Refl R] [Trans R R R] :
    WalkClosed (fun _ x _ => Obeys R x) (OfFirst fun _ x _ => Obeys R x) where
  toBuildClosed := obeys_buildClosed R
  toPairClosed := (obeys_buildClosed R).pair
  write := setRegisterValue_obeys
  replace r cond other n := onStore_obeys (SeriesRef.replaceUnless_revises r cond other n)
  stamp r valid := onStore_obeys (SeriesRef.setValid_revises r valid)
  advance := advance_obeys
  limit nears _ := .limit nears

theorem chooseNew_obeys (inline : Bool) (c : SeriesRef) {yes no : MachineM Value} (keptYes : Obeys R yes)
    (keptNo : Obeys R no) : Obeys R (chooseNew inline c yes no) :=
  (obeys_walkClosed R).chooseNew (fun _ _ _ _ => keptYes) (fun _ _ _ _ => keptNo) inline c (OneScope.of ⟨[], false⟩) []

theorem builtinVariable_obeys {code : Code} (put : ∀ (m : Machine) (v : Value), R m (m.put code v)) (scope : Scope)
    (v : Variable) : Obeys R (builtinVariable scope code v) :=
  (obeys_walkClosed R).builtinVariable (fun scope _ _ _ w => setRegister_obeys scope (put · w))
    (fun _ => variableValue_quiet v) (OneScope.of scope) []

end Steps

variable {nodes : List Code}

theorem obeys_evalClosed (nodes : List Code) (R : Machine → Machine → Prop) [Evaluating nodes R] [Std.Refl R]
    [Trans R R R] (ids : List Nat) : EvalClosed ids (·.fits nodes) fun _ x _ => Obeys R x := by
  refine (obeys_walkClosed R).codeClosed (.one ids)
    (fun fit mem => Code.fits_child fit (Code.child_of_evaluated mem)) (fun _ _ => .pure _)
    (fun fit scope _ _ _ => Evaluating.builtin scope fit) fun fit numbered own scope _ _ _ v => ?_
  exact setRegister_obeys scope fun m => Evaluating.put m (Code.fits_numbered fit numbered).1 numbered own v

theorem eval_obeys [Evaluating nodes R] (scope : Scope) (code : Code) (fit : code.fits nodes) :
    Obeys R (eval scope code) :=
  (obeys_evalClosed nodes R scope.mutable).judged rfl code fit []

/-- The program, the bar, the times and the registers from a number on are as they were. -/
structure Leaves (n : Nat) (m m' : Machine) : Prop where
  program : m'.program = m.program
  bar : m'.barNow = m.barNow
  times : m'.timesNow = m.timesNow
  holds : ∀ id, n ≤ id → m'.holds (some id) = m.holds (some id)

variable {n : Nat}

instance : Std.Refl (Leaves n) :=
  ⟨fun _ => ⟨rfl, rfl, rfl, fun _ _ => rfl⟩⟩

instance : Trans (Leaves n) (Leaves n) (Leaves n) :=
  ⟨fun first second => ⟨second.program.trans first.program, second.bar.trans first.bar, second.times.trans first.times,
    fun id high => (second.holds id high).trans (first.holds id high)⟩⟩

instance : Writing (Leaves n) where
  store _ _ _ := ⟨rfl, rfl, rfl, fun _ _ => rfl⟩
  header _ _ := ⟨rfl, rfl, rfl, fun _ _ => rfl⟩
  outputs _ _ := ⟨rfl, rfl, rfl, fun _ _ => rfl⟩
  fills _ _ := ⟨rfl, rfl, rfl, fun _ _ => rfl⟩
  broker _ _ _ _ _ := ⟨rfl, rfl, rfl, fun _ _ => rfl⟩
  write _ _ _ := ⟨rfl, rfl, rfl, fun _ _ => rfl⟩

theorem leaves_put (m : Machine) {code node : Code} {id : Nat} (known : nodes[id]? = some node)
    (numbered : code.id? = some id) (v : Value) : Leaves nodes.length m (m.put code v) := by
  refine ⟨rfl, barNow_put m code v, timesNow_put m code v, fun id' high => holds_put_ne (fun same => ?_) m v⟩
  exact Nat.not_lt.mpr high (Code.low_number known numbered id' same)

instance : Evaluating nodes (Leaves nodes.length) where
  put m _ _ known numbered _ v := leaves_put m known numbered v
  builtin scope _ _ _ _ known := builtinVariable_obeys (fun m v => leaves_put m known rfl v) scope _

theorem eval_leaves (scope : Scope) (nodes : List Code) (code : Code) (fit : code.fits nodes) :
    Obeys (Leaves nodes.length) (eval scope code) :=
  eval_obeys scope code fit

end Machine

end PineEngine
