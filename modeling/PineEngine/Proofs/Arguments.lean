import Mathlib.Data.List.Forall2
import PineEngine.Proofs.Levels

/-! # Arguments of calls

Binding arguments to a signature does not depend on how the kinds of values are named, but for the text of a fault.
`Signature.take` binds operands: columns in the place of series. What is known of the arguments of a call is known of
the operands that its parameters take.
-/

namespace PineEngine

open Script Builtin Computation List

/-- What an operand is of which something is known: a number, or a column of `n` entries. -/
inductive Operand.Meets (n : Nat) : Option Value → Operand → Prop where
  | number {w : Value} (number : w.isNumber) : Meets n (some w) (.single w)
  | column {c : Column} (level : c.Level n) : Meets n none (.column c)

theorem Operand.Meets.level {n : Nat} {known : Option Value} {x : Operand} (meets : x.Meets n known) : x.Level n := by
  cases meets with
  | number number => exact Value.single_of_number number
  | column level => exact level

/-- An operand that is a single value, or a column of machine cells. -/
def Operand.IsMachine : Operand → Prop
  | single _ => True
  | column c => c.cells.kind ≠ .object

namespace Builtin

/-- Answers that are related, or the same fault but for the text of a complaint about an argument. -/
inductive Alike {α β : Type} (R : α → β → Prop) : Except Fault α → Except Fault β → Prop where
  | ok {a : α} {b : β} (related : R a b) : Alike R (.ok a) (.ok b)
  | argument (e e' : ArgumentError) : Alike R (.error (.argument e)) (.error (.argument e'))
  | error (e : Fault) : Alike R (.error e) (.error e)

namespace Alike

variable {α β γ δ ι : Type} {R : α → β → Prop} {T : γ → δ → Prop} {x : Except Fault α} {y : Except Fault β}

theorem refl (x : Except Fault α) : Alike Eq x x := by
  cases x with
  | ok a => exact .ok rfl
  | error e => exact .error e

theorem bind (alike : Alike R x y) {f : α → Except Fault γ} {g : β → Except Fault δ}
    (rest : ∀ a b, R a b → Alike T (f a) (g b)) : Alike T (x >>= f) (y >>= g) := by
  cases alike with
  | ok related => exact rest _ _ related
  | argument e e' => exact .argument e e'
  | error e => exact .error e

theorem mapM {f : ι → Except Fault α} {g : ι → Except Fault β} (each : ∀ i, Alike R (f i) (g i)) (is : List ι) :
    Alike (Forall₂ R) (is.mapM f) (is.mapM g) := by
  induction is with
  | nil => exact .ok .nil
  | cons i is ih =>
    rw [mapM_cons, mapM_cons]
    exact bind (each i) fun _ _ here => bind ih fun _ _ others => .ok (.cons here others)

end Alike

variable {names names' : Value → String}

theorem accept_alike (p : Parameter) (v : Value) : Alike Eq (p.accept names v) (p.accept names' v) := by
  unfold Parameter.accept
  split
  · exact .refl _
  · exact .refl _
  · refine (Alike.refl _).bind fun converted _ same => ?_
    subst same
    split
    · exact .refl _
    · exact .argument _ _

theorem convert_of_accept {p : Parameter} {k : ArgKind} {v w : Value} (kind : p.kind = some k) (h : v ≠ .absent)
    (accepted : p.accept names v = .ok w) : k.convert? v = .ok (some w) := by
  unfold Parameter.accept at accepted
  split at accepted
  next => exact (h rfl).elim
  next any => cases kind.symm.trans any
  next some =>
    cases kind.symm.trans some
    obtain ⟨converted, conversion, taken⟩ := bind_eq_ok accepted
    cases converted with
    | none => cases taken
    | some w =>
      cases taken
      exact conversion

variable {α β : Type} {R : α → β → Prop} {f : Parameter → Except Fault α} {xs : List (String × α)}

theorem lookup_of_mapM {sig : Signature} {a : List (String × α)}
    (bound : sig.mapM (fun p => do pure (p.name, ← f p)) = Except.ok a) (distinct : (sig.map (·.name)).Nodup)
    {p : Parameter} (mem : p ∈ sig) : ∃ x, a.lookup p.name = some x ∧ f p = .ok x := by
  induction sig generalizing a with
  | nil => cases mem
  | cons q sig ih =>
    rw [mapM_cons] at bound
    obtain ⟨entry, taken, bound⟩ := bind_eq_ok bound
    obtain ⟨x, accepted, taken⟩ := bind_eq_ok taken
    obtain ⟨rest, others, bound⟩ := bind_eq_ok bound
    cases taken
    cases bound
    rw [map_cons, nodup_cons] at distinct
    rcases mem_cons.mp mem with rfl | mem
    · exact ⟨x, by simp, accepted⟩
    · have other : (p.name == q.name) = false := by
        rw [beq_eq_false_iff_ne]
        intro same
        exact distinct.1 (same ▸ mem_map_of_mem mem)
      obtain ⟨y, found, accepted⟩ := ih others distinct.2 mem
      exact ⟨y, by rw [lookup_cons, other, found], accepted⟩

theorem lookup_related {ys : List (String × β)}
    (related : Forall₂ (fun x y => x.1 = y.1 ∧ R x.2 y.2) xs ys) (name : String) :
    Option.Rel R (xs.lookup name) (ys.lookup name) := by
  induction related with
  | nil => exact .none
  | @cons x y xs ys here _ ih =>
    obtain ⟨k, a⟩ := x
    obtain ⟨k', b⟩ := y
    obtain ⟨rfl, related⟩ := here
    simp only [lookup_cons]
    split
    · exact .some related
    · exact ih

theorem placed_related (names : List String) {as : List α} {bs : List β}
    {named : List (String × α)} {named' : List (String × β)} (related : Forall₂ R as bs)
    (relatedNamed : Forall₂ (fun x y => x.1 = y.1 ∧ R x.2 y.2) named named') (name : String) :
    Option.Rel R ((named.reverse ++ (names.zip as).reverse).lookup name)
      ((named'.reverse ++ (names.zip bs).reverse).lookup name) := by
  have zipped : Forall₂ (fun x y => x.1 = y.1 ∧ R x.2 y.2) (names.zip as) (names.zip bs) := by
    induction related generalizing names with
    | nil => simp
    | cons here _ ih =>
      cases names with
      | nil => simp
      | cons name names => exact .cons ⟨rfl, here⟩ (ih names)
  exact lookup_related (rel_append (rel_reverse relatedNamed) (rel_reverse zipped)) name

theorem mapM_related {g : Parameter → Except Fault β} (each : ∀ p, Alike R (f p) (g p)) (sig : Signature) :
    Alike (fun a b => ∀ name, Option.Rel R (a.lookup name) (b.lookup name))
      (sig.mapM fun p => do pure (p.name, ← f p)) (sig.mapM fun p => do pure (p.name, ← g p)) := by
  have one (p : Parameter) : Alike (fun x y => x.1 = y.1 ∧ R x.2 y.2) (do pure (p.name, ← f p))
      (do pure (p.name, ← g p)) :=
    (each p).bind fun _ _ related => .ok ⟨rfl, related⟩
  have all := Alike.mapM one sig
  generalize sig.mapM (fun p => do pure (p.name, ← f p)) = x at all ⊢
  generalize sig.mapM (fun p => do pure (p.name, ← g p)) = y at all ⊢
  cases all with
  | ok related => exact .ok (lookup_related related)
  | argument e e' => exact .argument e e'
  | error e => exact .error e

/-- A parameter takes an operand as it takes a value. A column stays what it is, if a series is taken. -/
def Parameter.take (p : Parameter) : Operand → Except Fault Operand
  | .single v => (p.accept (fun _ => "") v).map .single
  | .column c => (p.accept (fun _ => "") (.series ⟨0⟩)).map fun _ => .column c

/-- The operand for a name; of two for one name the first counts. -/
def operandOf (given : List (String × Operand)) (name : String) : Operand :=
  (given.lookup name).getD (.single .absent)

/-- The operands by name: those given by position, overridden by those given by name. -/
def Signature.operands (sig : Signature) (args : List Operand) (named : List (String × Operand)) :
    List (String × Operand) :=
  named.reverse ++ ((sig.map (·.name)).zip args).reverse

def Signature.take (sig : Signature) (args : List Operand) (named : List (String × Operand)) :
    Except Fault (String → Operand) :=
  if sig.length < args.length then .error (.argument (.tooMany args.length sig.length))
  else do
    let taken ← sig.mapM fun p => do pure (p.name, ← p.take (operandOf (sig.operands args named) p.name))
    pure (operandOf taken)

def columnOf : Operand → Except Fault Column
  | .column c => .ok c
  | .single _ => .error .operands

def wholeOf : Operand → Except Fault Int
  | .single v =>
    match v.whole? with
    | some i => .ok i
    | none => .error .operands
  | .column _ => .error .operands

def Natural (x : Operand) : Prop :=
  ∀ i, wholeOf x = .ok i → ∃ j : Nat, i = j

theorem operandOf_related {R : α → Operand → Prop} {ys : List (String × Operand)}
    {default : α} {name : String} (absent : R default (.single .absent))
    (related : Option.Rel R (xs.lookup name) (ys.lookup name)) :
    R ((xs.lookup name).getD default) (operandOf ys name) := by
  rw [operandOf]
  generalize xs.lookup name = x at related ⊢
  generalize ys.lookup name = y at related ⊢
  cases related with
  | none => exact absent
  | some related => exact related

section

variable {n k : Nat} {sig : Signature} {args : List Operand} {named : List (String × Operand)} {a : String → Operand}
  {known : List (Option Value)} {knownNamed : List (String × Option Value)} {p : Parameter} {x y : Operand} {v w : Value}

theorem convert_single {kind : ArgKind} (single : v.isSingle) (h : kind.convert? v = .ok (some w)) :
    w.isSingle := by
  unfold ArgKind.convert? at h
  split at h
  · obtain ⟨x, _, h⟩ := map_eq_ok h
    cases h
    rfl
  · obtain ⟨i, _, h⟩ := bind_eq_ok h
    split at h <;> cases h
    rfl
  · cases h
    split <;> rfl
  · split at h <;> cases h
    exact single

theorem accept_single (single : v.isSingle) (accepted : p.accept names v = .ok w) : w.isSingle := by
  unfold Parameter.accept at accepted
  split at accepted
  · split at accepted <;> cases accepted
    rfl
  · cases accepted
    exact single
  · obtain ⟨converted, conversion, accepted⟩ := bind_eq_ok accepted
    split at accepted <;> cases accepted
    exact convert_single single conversion

theorem take_any (any : p.kind = none) (taken : p.take x = .ok y) : y = x ∧ (p.mandatory → x ≠ .single .absent) := by
  have accepts {v w : Value} (accepted : p.accept (fun _ => "") v = .ok w) : w = v ∧ (p.mandatory → v ≠ .absent) := by
    unfold Parameter.accept at accepted
    split at accepted
    · split at accepted <;> cases accepted
      exact ⟨rfl, fun mandatory => absurd mandatory ‹_›⟩
    next other _ => exact ⟨(Except.ok.inj accepted).symm, fun _ absent => other absent⟩
    next some => cases any.symm.trans some
  cases x with
  | single v =>
    obtain ⟨w, accepted, rfl⟩ := map_eq_ok taken
    exact ⟨congrArg Operand.single (accepts accepted).1, fun mandatory same =>
      (accepts accepted).2 mandatory (Operand.single.inj same)⟩
  | column c =>
    obtain ⟨w, _, rfl⟩ := map_eq_ok taken
    exact ⟨rfl, nofun⟩

theorem take_level (level : x.Level n) (taken : p.take x = .ok y) : y.Level n := by
  cases x with
  | single v =>
    obtain ⟨w, accepted, rfl⟩ := map_eq_ok taken
    exact accept_single level accepted
  | column c =>
    obtain ⟨_, _, rfl⟩ := map_eq_ok taken
    exact level

theorem take_machine (machine : x.IsMachine) (taken : p.take x = .ok y) : y.IsMachine := by
  cases x with
  | single v =>
    obtain ⟨w, _, rfl⟩ := map_eq_ok taken
    trivial
  | column c =>
    obtain ⟨_, _, rfl⟩ := map_eq_ok taken
    exact machine

theorem take_keeps {P : Operand → Prop} (each : ∀ p x y, P x → Parameter.take p x = .ok y → P y)
    (absent : P (.single .absent)) (positional : ∀ x ∈ args, P x) (byName : ∀ x ∈ named, P x.2)
    (taken : sig.take args named = .ok a) (name : String) : P (a name) := by
  have found {ys : List (String × Operand)} (all : ∀ y ∈ ys, P y.2) (name : String) : P (operandOf ys name) := by
    rw [operandOf]
    cases looked : ys.lookup name with
    | none => exact absent
    | some y =>
      obtain ⟨_, _, rfl, _⟩ := lookup_eq_some_iff.mp looked
      exact all (name, y) (by simp)
  unfold Signature.take at taken
  split at taken
  · cases taken
  · obtain ⟨ys, bound, taken⟩ := bind_eq_ok taken
    cases taken
    refine found (fun y mem => ?_) name
    obtain ⟨p, _, here⟩ := mem_of_mapM bound mem
    obtain ⟨y, accepted, here⟩ := bind_eq_ok here
    cases here
    refine each p _ y (found (fun x member => ?_) p.name) accepted
    rcases mem_append.mp member with member | member
    · exact byName x (mem_reverse.mp member)
    · exact positional _ (of_mem_zip (mem_reverse.mp member)).2

theorem take_eq_ok (distinct : (sig.map (·.name)).Nodup) (taken : sig.take args named = .ok a) (mem : p ∈ sig) :
    args.length ≤ sig.length ∧ p.take (operandOf (sig.operands args named) p.name) = .ok (a p.name) := by
  unfold Signature.take at taken
  split at taken
  · cases taken
  next few =>
    obtain ⟨ys, bound, taken⟩ := bind_eq_ok taken
    cases taken
    obtain ⟨y, found, accepted⟩ := lookup_of_mapM bound distinct mem
    rw [accepted, operandOf, found]
    exact ⟨Nat.le_of_not_lt few, rfl⟩

theorem take_first (k : Nat) (sig : Signature) (args : List Operand) (named : List (String × Operand)) :
    Alike (fun a b => b = fun name => (a name).first k) (sig.take args named)
      (sig.take (args.map (Operand.first k)) (named.map (Prod.map id (Operand.first k)))) := by
  have all (named : List (String × Operand)) : Forall₂ (fun x y => x.1 = y.1 ∧ y.2 = x.2.first k) named
      (named.map (Prod.map id (Operand.first k))) :=
    forall₂_map_right_iff.mpr (forall₂_same.mpr fun _ _ => ⟨rfl, rfl⟩)
  have positional : Forall₂ (fun x y => y = x.first k) args (args.map (Operand.first k)) :=
    forall₂_map_right_iff.mpr (forall₂_same.mpr fun _ _ => rfl)
  have h (name : String) : operandOf (sig.operands (args.map (Operand.first k))
      (named.map (Prod.map id (Operand.first k)))) name = (operandOf (sig.operands args named) name).first k :=
    operandOf_related (R := fun x y => y = Operand.first k x) rfl (placed_related _ positional (all named) name)
  have each (p : Parameter) : Alike (fun x y => y = x.first k) (p.take (operandOf (sig.operands args named) p.name))
      (p.take (operandOf (sig.operands (args.map (Operand.first k)) (named.map (Prod.map id (Operand.first k))))
        p.name)) := by
    rw [h]
    cases operandOf (sig.operands args named) p.name with
    | single v => exact (Alike.refl (p.accept _ v)).bind fun _ _ same => .ok (same ▸ rfl)
    | column c => exact (Alike.refl (p.accept _ (.series ⟨0⟩))).bind fun _ _ _ => .ok rfl
  unfold Signature.take
  rw [length_map]
  split
  · exact .error _
  · exact (mapM_related each sig).bind fun _ _ related =>
      .ok (funext fun name => operandOf_related (R := fun x y => y = Operand.first k x) rfl (related name))

structure Knows (n : Nat) (known : List (Option Value)) (knownNamed : List (String × Option Value))
    (args : List Operand) (named : List (String × Operand)) : Prop where
  positional : Forall₂ (Operand.Meets n) known args
  byName : Forall₂ (fun x y => x.1 = y.1 ∧ y.2.Meets n x.2) knownNamed named

variable (knows : Knows n known knownNamed args named)

include knows

theorem Knows.related (sig : Signature) (name : String) :
    Option.Rel (Operand.Meets n) (knownFor sig known knownNamed name) ((sig.operands args named).lookup name) :=
  placed_related _ knows.positional knows.byName name

theorem Knows.level : (∀ x ∈ args, x.Level n) ∧ ∀ x ∈ named, x.2.Level n := by
  obtain ⟨positional, byName⟩ := knows
  constructor
  · induction positional with
    | nil => nofun
    | cons meets _ ih => exact forall_mem_cons.mpr ⟨meets.level, ih⟩
  · induction byName with
    | nil => nofun
    | cons meets _ ih => exact forall_mem_cons.mpr ⟨meets.2.level, ih⟩

theorem natural_of_count (distinct : (sig.map (·.name)).Nodup) (taken : sig.take args named = .ok a) {name : String}
    (mem : needed name (some .int) ∈ sig) (count : isCount (knownFor sig known knownNamed name)) :
    Natural (a name) := by
  intro i whole
  have accepted := (take_eq_ok distinct taken mem).2
  have fits := knows.related sig name
  replace accepted : Parameter.take _ (((sig.operands args named).lookup name).getD _) = .ok (a name) := accepted
  generalize (sig.operands args named).lookup name = found at accepted fits
  generalize knownFor sig known knownNamed name = expected at fits count
  cases fits with
  | none => cases accepted
  | some meets =>
    cases meets with
    | column level => cases accepted
    | number number =>
      obtain ⟨v, accepted, same⟩ := map_eq_ok accepted
      have conversion := convert_of_accept rfl (fun absent => by cases absent; cases number) accepted
      rw [isCount, conversion] at count
      replace count : v.whole?.all (0 ≤ ·) = true := count
      rw [← same, wholeOf] at whole
      split at whole <;> cases whole
      next found =>
        rw [found] at count
        exact Int.eq_ofNat_of_zero_le (of_decide_eq_true count)

end

end Builtin

end PineEngine
