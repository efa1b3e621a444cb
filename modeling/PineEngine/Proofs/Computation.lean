import PineEngine.Machine

/-! # Computations

A computation on a state gives a result or a fault, and leaves a state in either case
(`Computation.outcome`). `Obeys` says that a computation respects a relation between the state before it
and the state after it, whether it fails or not; a relation that is reflexive and transitive is respected by
a sequence of computations if each of them respects it. `Leads` is for those that owe their result to what
happened before: they come from states with one property to states with another.
-/

namespace PineEngine

/-- Computations on a state that may fail; what they changed before they failed stays. -/
abbrev Computation (σ α : Type) := ExceptT Fault (StateM σ) α

namespace Computation

variable {σ α β : Type} {x : Computation σ α} {f : α → Computation σ β}

/-- What a computation gives from a state, and the state it leaves. -/
def outcome (x : Computation σ α) (s : σ) : Except Fault α × σ :=
  x.run.run s

def leaves (x : Computation σ α) (s : σ) : σ :=
  (outcome x s).2

@[simp] theorem outcome_pure (a : α) (s : σ) : outcome (pure a) s = (.ok a, s) := rfl

@[simp] theorem outcome_get (s : σ) : outcome get s = (.ok s, s) := rfl

@[simp] theorem outcome_modify (f : σ → σ) (s : σ) : outcome (modify f) s = (.ok (), f s) := rfl

theorem outcome_bind (x : Computation σ α) (f : α → Computation σ β) (s : σ) :
    outcome (x >>= f) s = match outcome x s with
      | (.ok a, s') => outcome (f a) s'
      | (.error e, s') => (.error e, s') := by
  change (ExceptT.bindCont f (outcome x s).1 : StateM σ _) (outcome x s).2 = _
  rcases outcome x s with ⟨_ | _, _⟩ <;> rfl

theorem bind_ok {s s' a} (h : outcome x s = (.ok a, s')) : outcome (x >>= f) s = outcome (f a) s' := by
  rw [outcome_bind, h]

theorem get_bind (f : σ → Computation σ β) (s : σ) : outcome (get >>= f) s = outcome (f s) s := rfl

theorem bind_error {s s' e} (h : outcome x s = (.error e, s')) : outcome (x >>= f) s = (.error e, s') := by
  rw [outcome_bind, h]

theorem leaves_bind_pure (x : Computation σ α) (f : α → β) (s : σ) :
    leaves (x >>= fun a => pure (f a)) s = leaves x s := by
  rw [leaves, leaves, outcome_bind]
  rcases outcome x s with ⟨_ | _, _⟩ <;> rfl

theorem leaves_bind {P : σ → Prop} {s : σ} (first : P (leaves x s))
    (rest : ∀ a s', outcome x s = (.ok a, s') → P s' → P (leaves (f a) s')) : P (leaves (x >>= f) s) := by
  rw [leaves] at first
  rw [leaves, outcome_bind]
  rcases h : outcome x s with ⟨e | a, s'⟩ <;> rw [h] at first
  · exact first
  · exact rest a s' h first

theorem outcome_tryCatch (x : Computation σ α) (h : Fault → Computation σ α) (s : σ) :
    outcome (tryCatch x h) s = match outcome x s with
      | (.ok a, s') => (.ok a, s')
      | (.error e, s') => outcome (h e) s' := by
  rcases given : outcome x s with ⟨_ | _, _⟩ <;>
    have given : x s = _ := given <;>
    simp [outcome, tryCatch, tryCatchThe, MonadExceptOf.tryCatch, ExceptT.tryCatch, ExceptT.run,
      ExceptT.mk, StateT.run, bind, StateT.bind, given] <;> rfl

theorem outcome_tryFinally (x : Computation σ α) (f : σ → σ) (s : σ) :
    outcome (tryFinally x (modify f)) s = ((outcome x s).1, f (outcome x s).2) := by
  rcases h : outcome x s with ⟨_ | _, _⟩ <;>
    have h : x s = _ := h <;>
    simp only [outcome, tryFinally, MonadFinally.tryFinally', ExceptT.run, ExceptT.mk, StateT.run, bind,
      Functor.map, ExceptT.map, StateT.bind, pure, h] <;> rfl

theorem throw_bind (e : Fault) (f : α → Computation σ β) : (throw e >>= f) = throw e := rfl

theorem outcome_bind_eq_ok {s s' b} (h : outcome (x >>= f) s = (.ok b, s')) :
    ∃ a t, outcome x s = (.ok a, t) ∧ outcome (f a) t = (.ok b, s') := by
  rw [outcome_bind] at h
  split at h
  next a t first => exact ⟨a, t, first, h⟩
  next => cases h

theorem outcome_bind₂_eq_ok {γ : Type} {g : α → β → Computation σ γ} {s s' c}
    (h : outcome (x >>= fun a => f a >>= g a) s = (.ok c, s')) :
    ∃ a t, outcome x s = (.ok a, t) ∧ ∃ b t', outcome (f a) t = (.ok b, t') ∧ outcome (g a b) t' = (.ok c, s') := by
  obtain ⟨a, t, first, h⟩ := outcome_bind_eq_ok h
  exact ⟨a, t, first, outcome_bind_eq_ok h⟩

end Computation

open Computation

variable {σ α β : Type} {R : σ → σ → Prop} {x : Computation σ α} {f : α → Computation σ β}

/-- The state after a computation is related to the state before it. -/
def Obeys (R : σ → σ → Prop) (x : Computation σ α) : Prop :=
  ∀ s, R s (leaves x s)

theorem Obeys.ended (obeys : Obeys R x) {s s' : σ} {a : Except Fault α} (h : outcome x s = (a, s')) : R s s' := by
  have after : R s (outcome x s).2 := obeys s
  rwa [h] at after

theorem Obeys.state_eq (reads : Obeys Eq x) {s s' : σ} {a : α} (h : outcome x s = (.ok a, s')) : s' = s :=
  (reads.ended h).symm

/-- Computations come near to another one as they are given more time: if it ends they agree with it from some time on,
    and if it never ends none of them does. -/
def Nears (x : Nat → Computation σ α) (y : Computation σ α) : Prop :=
  ∀ s, (outcome y s = (.error .endless, s) ∧ ∀ n, (outcome (x n) s).1 = .error .endless) ∨
    (outcome y s).1 ≠ .error .endless ∧ ∃ n, ∀ k, n ≤ k → outcome (x k) s = outcome y s

theorem Nears.cases {x : Nat → Computation σ α} {y : Computation σ α} (nears : Nears x y) (s : σ) :
    outcome y s = outcome (throw .endless) s ∨ ∃ n, outcome y s = outcome (x n) s := by
  obtain ⟨never, _⟩ | ⟨_, n, same⟩ := nears s
  · exact .inl never
  · exact .inr ⟨n, (same n (Nat.le_refl n)).symm⟩

theorem Obeys.bind_eq_ok (reads : Obeys Eq x) {s s' : σ} {b : β} (h : outcome (x >>= f) s = (.ok b, s')) :
    ∃ a, outcome x s = (.ok a, s) ∧ outcome (f a) s = (.ok b, s') := by
  obtain ⟨a, t, first, rest⟩ := outcome_bind_eq_ok h
  cases reads.state_eq first
  exact ⟨a, first, rest⟩

namespace Obeys

theorem pure [Std.Refl R] (a : α) : Obeys R (pure a) :=
  fun s => Std.Refl.refl s

theorem throw [Std.Refl R] (e : Fault) : Obeys R (throw e : Computation σ α) :=
  fun s => Std.Refl.refl s

theorem get [Std.Refl R] : Obeys R (get : Computation σ σ) :=
  fun s => Std.Refl.refl s

theorem limit [Std.Refl R] {x : Nat → Computation σ α} {y : Computation σ α} (nears : Nears x y)
    (each : ∀ n, Obeys R (x n)) : Obeys R y := by
  intro s
  obtain never | ⟨n, same⟩ := nears.cases s
  · rw [leaves, never]
    exact Std.Refl.refl s
  · rw [leaves, same]
    exact each n s

theorem of_reads [Std.Refl R] (reads : Obeys Eq x) : Obeys R x :=
  fun s => reads s ▸ Std.Refl.refl s

variable [Trans R R R]

theorem bind_found (first : Obeys R x)
    (rest : ∀ s a s', outcome x s = (.ok a, s') → Obeys R (f a)) : Obeys R (x >>= f) :=
  fun s => leaves_bind (first s) fun a s' h before => Trans.trans before (rest s a s' h s')

theorem bind (first : Obeys R x) (rest : ∀ a, Obeys R (f a)) : Obeys R (x >>= f) :=
  bind_found first fun _ a _ _ => rest a

theorem tryCatch {h : Fault → Computation σ α} (first : Obeys R x)
    (rest : ∀ e, Obeys R (h e)) : Obeys R (tryCatch x h) := by
  intro s
  have before : R s (outcome x s).2 := first s
  rw [leaves, outcome_tryCatch]
  rcases given : outcome x s with ⟨e | a, s'⟩ <;> rw [given] at before
  · exact Trans.trans before (rest e s')
  · exact before

variable [Std.Refl R]

theorem forM {f : α → Computation σ PUnit} (each : ∀ a, Obeys R (f a)) (as : List α) :
    Obeys R (as.forM f) := by
  induction as with
  | nil => exact pure _
  | cons a as ih => exact bind (each a) fun _ => ih

theorem mapM (each : ∀ a, Obeys R (f a)) (as : List α) : Obeys R (as.mapM f) := by
  induction as with
  | nil => exact pure _
  | cons a as ih =>
    rw [List.mapM_cons]
    exact bind (each a) fun _ => bind ih fun _ => pure _

theorem foldlM {f : β → α → Computation σ β} (each : ∀ b a, Obeys R (f b a)) (as : List α) (b : β) :
    Obeys R (as.foldlM f b) := by
  induction as generalizing b with
  | nil => exact pure _
  | cons a as ih =>
    exact bind (each b a) fun b => ih b

end Obeys

/-- From a state with `P` a computation comes to a result and a state with `Q`, or it fails in a state
    with `E`. -/
def Leads (E P : σ → Prop) (x : Computation σ α) (Q : α → σ → Prop) : Prop :=
  ∀ s, P s → match outcome x s with
    | (.ok a, s') => Q a s'
    | (.error _, s') => E s'

namespace Leads

variable {E P : σ → Prop} {Q : α → σ → Prop}

theorem pure {a : α} (holds : ∀ s, P s → Q a s) : Leads E P (pure a) Q :=
  fun s before => holds s before

theorem bind {T : β → σ → Prop}
    (first : Leads E P x Q) (rest : ∀ a, Leads E (Q a) (f a) T) : Leads E P (x >>= f) T := by
  intro s before
  have between := first s before
  rw [outcome_bind]
  rcases h : outcome x s with ⟨e | a, s'⟩ <;> rw [h] at between
  · exact between
  · exact rest a s' between

theorem of_step {Q : σ → Prop} (obeys : Obeys R x) (fails : ∀ s s', P s → R s s' → E s')
    (holds : ∀ s s', P s → R s s' → Q s') : Leads E P x fun _ => Q := by
  intro s before
  have after : R s (outcome x s).2 := obeys s
  rcases h : outcome x s with ⟨e | a, s'⟩ <;> rw [h] at after
  · exact fails s s' before after
  · exact holds s s' before after

theorem of_reads (reads : Obeys Eq x) (fails : ∀ s, P s → E s) : Leads E P x fun _ => P :=
  of_step reads (fun s _ before same => same ▸ fails s before) fun _ _ before same => same ▸ before

theorem of_obeys [Trans R R R] {s₀ : σ} (obeys : Obeys R x) : Leads (R s₀) (R s₀) x fun _ => R s₀ :=
  of_step obeys (fun _ _ => Trans.trans) fun _ _ => Trans.trans

theorem obeys [Std.Refl R] {Q : σ → α → σ → Prop}
    (leads : ∀ s, Leads (R s) (R s) x (Q s)) (holds : ∀ s a s', Q s a s' → R s s') : Obeys R x := by
  intro s
  have after := leads s s (Std.Refl.refl s)
  rw [leaves]
  rcases h : outcome x s with ⟨e | a, s'⟩ <;> rw [h] at after
  · exact after
  · exact holds s a s' after

theorem forM {f : α → Computation σ PUnit} (each : ∀ a, Leads E P (f a) fun _ => P) (as : List α) :
    Leads E P (as.forM f) fun _ => P := by
  induction as with
  | nil => exact pure fun _ before => before
  | cons a as ih => exact bind (each a) fun _ => ih

theorem foldlM {f : β → α → Computation σ β} (each : ∀ b a, Leads E P (f b a) fun _ => P) (as : List α)
    (b : β) : Leads E P (as.foldlM f b) fun _ => P := by
  induction as generalizing b with
  | nil => exact pure fun _ before => before
  | cons a as ih =>
    exact bind (each b a) fun b => ih b

end Leads

end PineEngine
