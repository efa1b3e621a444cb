import PineEngine.Proofs.Computation

/-! # The names that a tree reads

What a tree means depends on the scopes only through the names that it mentions without defining them first.
`Reads` says so of a resolution, both ways: two stacks of scopes give the same code just if these names mean the
same in both. Resolutions in a row read what the first of them reads, and what the second reads and the first does
not define (`Reads.bind`).
-/

namespace PineEngine.Script

open Builtin
open Computation

namespace Tree

mutual

/-- Whether a tree defines a name for what follows it in its scope. -/
def defines (x : String) : Tree → Bool
  | .block _ items | .list _ items | .anyOf _ items | .allOf _ items => anyDefines x items
  | .binary _ _ a b => a.defines x || b.defines x
  | .unary _ _ a => a.defines x
  | .call _ _ args named => anyDefines x args || anyNamedDefines x named
  | .choice _ c _ _ _ => c.defines x
  | .define _ name e => name == x || e.defines x
  | .assign _ _ e => e.defines x
  | .literal _ _ | .variable _ _ | .loop _ _ _ _ _ _ | .function _ _ _ _ | .inlined _ _ _ _ | .empty | .word _ => false

def anyDefines (x : String) : List Tree → Bool
  | [] => false
  | t :: rest => t.defines x || anyDefines x rest

def anyNamedDefines (x : String) : List (String × Tree) → Bool
  | [] => false
  | (_, t) :: rest => t.defines x || anyNamedDefines x rest

end

mutual

/-- Whether a tree mentions a name that it has not defined before. -/
def mentions (x : String) : Tree → Bool
  | .block _ items | .list _ items | .anyOf _ items | .allOf _ items => anyMentions x items
  | .binary _ _ a b => a.mentions x || !a.defines x && b.mentions x
  | .unary _ _ a => a.mentions x
  | .variable _ name => name == x
  | .call _ _ args named => anyMentions x args || !anyDefines x args && anyNamedMentions x named
  | .choice _ c y none _ => c.mentions x || !c.defines x && y.mentions x
  | .choice _ c y (some e) _ => c.mentions x || !c.defines x && (y.mentions x || e.mentions x)
  | .loop _ _ counter first last body =>
    first.mentions x || !(first.defines x || counter == x) && (last.mentions x || !last.defines x && body.mentions x)
  | .define _ _ e => e.mentions x
  | .assign _ name e => e.mentions x || !e.defines x && name == x
  | .inlined _ _ args body => anyMentions x args || !anyDefines x args && body.mentions x
  | .literal _ _ | .function _ _ _ _ | .empty | .word _ => false

def anyMentions (x : String) : List Tree → Bool
  | [] => false
  | t :: rest => t.mentions x || !t.defines x && anyMentions x rest

def anyNamedMentions (x : String) : List (String × Tree) → Bool
  | [] => false
  | (_, t) :: rest => t.mentions x || !t.defines x && anyNamedMentions x rest

end

end Tree

def Scopes.Agree (names : String → Prop) (scopes scopes' : Scopes) : Prop :=
  ∀ x, names x → scopes.find? x = scopes'.find? x

/-- A resolution that reads the names in `free` and defines those in `defined`. -/
def Reads {α : Type} (free defined : String → Prop) (x : ResolveM α) : Prop :=
  ∀ ⦃top rest n k a s⦄, outcome x ⟨top :: rest, n, k⟩ = (.ok a, s) →
    ∃ new : List (String × Code), s.scopes = (new ++ top) :: rest ∧ n ≤ s.next ∧
      (∀ name, (new.lookup name).isSome ↔ defined name) ∧
      ∀ top' rest',
        (Scopes.Agree free (top :: rest) (top' :: rest') →
          outcome x ⟨top' :: rest', n, k⟩ = (.ok a, ⟨(new ++ top') :: rest', s.next, s.mutable⟩)) ∧
        ∀ s', outcome x ⟨top' :: rest', n, k⟩ = (.ok a, s') →
          s' = ⟨(new ++ top') :: rest', s.next, s.mutable⟩ ∧ Scopes.Agree free (top :: rest) (top' :: rest')

def Yields {α : Type} (x : ResolveM α) (P : α → Prop) : Prop :=
  ∀ ⦃s a s'⦄, outcome x s = (.ok a, s') → P a

namespace Yields

variable {α β : Type} {P : α → Prop}

theorem pure {a : α} (holds : P a) : Yields (pure a) P := by
  intro s a' s' h
  cases h
  exact holds

theorem bind {x : ResolveM β} {f : β → ResolveM α} (rest : ∀ b, Yields (f b) P) : Yields (x >>= f) P := by
  intro s a s' h
  obtain ⟨b, t, _, h⟩ := outcome_bind_eq_ok h
  exact rest b h

end Yields

theorem Scopes.find?_cons (scope : List (String × Code)) (rest : Scopes) (x : String) :
    Scopes.find? (scope :: rest) x = (scope.lookup x).or (rest.find? x) := by
  simp only [Scopes.find?, List.findSome?_cons]
  cases scope.lookup x <;> rfl

theorem Scopes.find?_append (new top : List (String × Code)) (rest : Scopes) (x : String) :
    Scopes.find? ((new ++ top) :: rest) x = (new.lookup x).or (Scopes.find? (top :: rest) x) := by
  rw [find?_cons, find?_cons, List.lookup_append, Option.or_assoc]

theorem Scopes.agree_one_iff {name : String} {scopes scopes' : Scopes} :
    Scopes.Agree (fun x => name = x) scopes scopes' ↔ scopes.find? name = scopes'.find? name := by
  simp [Scopes.Agree]

theorem Scopes.agree_append_iff {names : String → Prop} (new : List (String × Code)) {top top' : List (String × Code)}
    {rest rest' : Scopes} :
    Scopes.Agree names ((new ++ top) :: rest) ((new ++ top') :: rest') ↔
      Scopes.Agree (fun x => ¬ (new.lookup x).isSome ∧ names x) (top :: rest) (top' :: rest') := by
  refine forall_congr' fun x => ?_
  show (names x → _) ↔ (¬ (new.lookup x).isSome ∧ names x → _)
  rw [find?_append, find?_append]
  cases new.lookup x <;> simp

theorem outcome_inScope {α : Type} (x : ResolveM α) (s : Resolution) :
    outcome (ResolveM.inScope x) s =
      ((outcome x { s with scopes := [] :: s.scopes }).1,
        { (outcome x { s with scopes := [] :: s.scopes }).2 with
          scopes := (outcome x { s with scopes := [] :: s.scopes }).2.scopes.drop 1 }) := by
  rw [ResolveM.inScope, bind_ok (outcome_modify _ _), outcome_tryFinally]

theorem outcome_resolveName (line : Line) (name : String) (s : Resolution) :
    outcome (resolveName line name) s =
      match s.scopes.find? name, Variable.ofName? name with
      | some target, _ => (.ok (.variable line name target), s)
      | none, none => (.error (.script (.variableNotFound name)), s)
      | none, some v =>
        match v.folded? with
        | some value => (.ok (.literal line value), s)
        | none => (.ok (.builtin line s.next name v), { s with next := s.next + 1 }) := by
  unfold resolveName
  rw [get_bind]
  cases s.scopes.find? name with
  | some target => rfl
  | none =>
    cases Variable.ofName? name with
    | none => rfl
    | some v =>
      dsimp only
      cases v.folded? <;> rfl

theorem outcome_resolveTarget (name : String) (s : Resolution) :
    outcome (resolveTarget name) s =
      match s.scopes.find? name with
      | some target =>
        (.ok target, match target.id? with
          | some id => { s with mutable := if s.mutable.contains id then s.mutable else id :: s.mutable }
          | none => s)
      | none => (.error (.script (if (Variable.ofName? name).isSome then .assignToBuiltin name else .variableNotFound name)), s) := by
  unfold resolveTarget
  rw [get_bind]
  cases s.scopes.find? name with
  | some target =>
    dsimp only
    cases target.id? <;> rfl
  | none => cases Variable.ofName? name <;> rfl

namespace Reads

variable {α β : Type} {free defined : String → Prop} {x : ResolveM α}

theorem of_iff {free' defined' : String → Prop} (reads : Reads free defined x)
    (same : ∀ name, free' name ↔ free name) (same' : ∀ name, defined' name ↔ defined name) :
    Reads free' defined' x := by
  obtain rfl : free' = free := funext fun name => propext (same name)
  obtain rfl : defined' = defined := funext fun name => propext (same' name)
  exact reads

theorem pure (a : α) : Reads (fun _ => False) (fun _ => False) (pure a) := by
  intro top rest n k a' s h
  cases h
  refine ⟨[], rfl, by simp, by simp, fun top' rest' => ⟨fun _ => rfl, ?_⟩⟩
  intro s' h
  cases h
  exact ⟨rfl, nofun⟩

theorem throw (e : Fault) : Reads free defined (throw e : ResolveM α) := by
  intro top rest n k a s h
  cases h

theorem fresh : Reads (fun _ => False) (fun _ => False) ResolveM.fresh := by
  intro top rest n k a s h
  cases h
  refine ⟨[], rfl, by simp, by simp, fun top' rest' => ⟨fun _ => rfl, ?_⟩⟩
  intro s' h
  cases h
  exact ⟨rfl, nofun⟩

theorem bind {f : α → ResolveM β} {free' defined' : String → Prop} (first : Reads free defined x)
    (rest : ∀ a, Reads free' defined' (f a)) (view : β → α) (known : ∀ a, Yields (f a) fun b => view b = a) :
    Reads (fun name => free name ∨ ¬ defined name ∧ free' name) (fun name => defined name ∨ defined' name) (x >>= f) := by
  intro top others n k b s h
  obtain ⟨a, ⟨scopes, n₁, k₁⟩, given₁, given₂⟩ := outcome_bind_eq_ok h
  obtain ⟨new₁, scopes₁, next₁, defined₁, both₁⟩ := first given₁
  cases scopes₁
  obtain ⟨new₂, scopes₂, next₂, defined₂, both₂⟩ := rest a given₂
  have hidden (top' : List (String × Code)) (others' : Scopes) :
      Scopes.Agree free' ((new₁ ++ top) :: others) ((new₁ ++ top') :: others') ↔
        Scopes.Agree (fun name => ¬ defined name ∧ free' name) (top :: others) (top' :: others') := by
    rw [Scopes.agree_append_iff]
    simp only [defined₁]
  refine ⟨new₂ ++ new₁, by rw [scopes₂, List.append_assoc], Nat.le_trans next₁ next₂, fun name => ?_,
    fun top' others' => ⟨fun agree => ?_, ?_⟩⟩
  · rw [List.lookup_append, Option.isSome_or, Bool.or_eq_true, defined₁, defined₂, or_comm]
  · have here := (both₁ top' others').1 fun name read => agree name (.inl read)
    rw [bind_ok here, List.append_assoc]
    exact (both₂ _ others').1 ((hidden top' others').mpr fun name read => agree name (.inr read))
  · intro s' given'
    obtain ⟨a', t', given₁', given₂'⟩ := outcome_bind_eq_ok given'
    have same : a' = a := by rw [← known a' given₂', ← known a given₂]
    cases same
    obtain ⟨state, agree₁⟩ := (both₁ top' others').2 t' given₁'
    cases state
    obtain ⟨state, agree₂⟩ := (both₂ _ others').2 s' given₂'
    refine ⟨by rw [state, List.append_assoc], fun name read => ?_⟩
    exact read.elim (agree₁ name) ((hidden top' others').mp agree₂ name)

theorem map (reads : Reads free defined x) (make : α → β) (view : β → α)
    (known : ∀ a, view (make a) = a) : Reads free defined (x >>= fun a => Pure.pure (make a)) :=
  .of_iff (.bind reads (fun _ => .pure _) view fun a => .pure (known a)) (by simp) (by simp)

theorem inScope (reads : Reads free defined x) :
    Reads free (fun _ => False) (ResolveM.inScope x) := by
  intro top rest n k a s h
  have inside (scopes scopes' : Scopes) (names : String → Prop) :
      Scopes.Agree names ([] :: scopes) ([] :: scopes') ↔ Scopes.Agree names scopes scopes' := by
    simp [Scopes.Agree, Scopes.find?_cons]
  rw [outcome_inScope] at h
  rcases inner : outcome x ⟨[] :: top :: rest, n, k⟩ with ⟨r, ⟨scopes₁, n₁, k₁⟩⟩
  rw [inner] at h
  cases h
  obtain ⟨new, scopes, next, _, both⟩ := reads inner
  cases scopes
  refine ⟨[], rfl, next, by simp, fun top' rest' => ⟨fun agree => ?_, ?_⟩⟩
  · rw [outcome_inScope, (both [] (top' :: rest')).1 ((inside _ _ _).mpr agree)]
    rfl
  · intro s' given'
    rw [outcome_inScope] at given'
    rcases inner' : outcome x ⟨[] :: top' :: rest', n, k⟩ with ⟨r', s₁'⟩
    rw [inner'] at given'
    cases given'
    obtain ⟨state, agree⟩ := (both [] (top' :: rest')).2 _ inner'
    cases state
    exact ⟨rfl, (inside _ _ _).mp agree⟩

theorem resolveDefine (line : Line) (name : String) (e : Code) :
    Reads (fun _ => False) (fun x => name = x) (resolveDefine line name e) := by
  intro top rest n k a s h
  cases h
  refine ⟨[(name, .define line n name e)], rfl, Nat.le_succ n, fun x => ?_, fun top' rest' => ⟨fun _ => rfl, ?_⟩⟩
  · rw [List.lookup_cons]
    cases same : x == name with
    | true => simp [eq_of_beq same]
    | false => simpa using fun here => (ne_of_beq_false same) here.symm
  · intro s' h
    cases h
    exact ⟨rfl, nofun⟩

theorem resolveName (line : Line) (name : String) :
    Reads (fun x => name = x) (fun _ => False) (resolveName line name) := by
  intro top rest n k a s h
  rw [outcome_resolveName] at h
  refine ⟨[], by grind, by grind, by simp, fun top' rest' => ?_⟩
  rw [Scopes.agree_one_iff, outcome_resolveName]
  refine ⟨?_, ?_⟩
  · grind
  · grind

theorem resolveTarget (name : String) :
    Reads (fun x => name = x) (fun _ => False) (resolveTarget name) := by
  intro top rest n k a s h
  rw [outcome_resolveTarget] at h
  refine ⟨[], by grind, by grind, by simp, fun top' rest' => ?_⟩
  rw [Scopes.agree_one_iff, outcome_resolveTarget]
  refine ⟨?_, ?_⟩
  · grind
  · grind

end Reads

namespace Code

/-- The parts of code, in the order in which they are resolved. -/
def part : Code → Nat → Code
  | .binary _ _ a _, 0 => a
  | .binary _ _ _ b, _ => b
  | .unary _ _ a, _ => a
  | .choice _ _ c _ _ _, 0 => c
  | .choice _ _ _ y _ _, 1 => y
  | .choice _ _ _ _ (some e) _, _ => e
  | .loop _ _ _ _ first _ _, 0 => first
  | .loop _ _ _ _ _ last _, 1 => last
  | .loop _ _ _ _ _ _ body, _ => body
  | .define _ _ _ e, _ => e
  | .assign _ _ _ e, 0 => e
  | .assign _ _ target _, _ => target
  | .inlined _ _ _ body, _ => body
  | c, _ => c

def items : Code → List Code
  | .block _ items | .list _ items | .anyOf _ items | .allOf _ items | .call _ _ _ items _ | .inlined _ _ items _ => items
  | _ => []

def named : Code → List (String × Code)
  | .call _ _ _ _ named => named
  | _ => []

def number : Code → Nat
  | .call id _ _ _ _ | .choice _ id _ _ _ _ | .loop _ _ id _ _ _ _ | .define _ id _ _ => id
  | _ => 0

end Code

namespace Tree

mutual

theorem resolve_reads (t : Tree) : Reads (t.mentions ·) (t.defines ·) t.resolve := by
  cases t with
  | block line items | list line items | anyOf line items | allOf line items =>
    refine .of_iff (.map (resolveItems_reads items) _ Code.items fun _ => rfl) ?_ ?_
    all_goals simp [mentions, defines]
  | literal line v => exact .of_iff (.pure _) (by simp [mentions]) (by simp [defines])
  | binary line op a b =>
    refine .of_iff (.bind (resolve_reads a) (fun _ => .map (resolve_reads b) _ (·.part 1) fun _ => rfl)
      (·.part 0) fun _ => .bind fun _ => .pure rfl) ?_ ?_
    all_goals simp [mentions, defines]
  | unary line op a =>
    refine .of_iff (.map (resolve_reads a) _ (·.part 0) fun _ => rfl) ?_ ?_
    all_goals simp [mentions, defines]
  | «variable» line name => exact .of_iff (.resolveName line name) (by simp [mentions]) (by simp [defines])
  | call line name args named =>
    unfold resolve
    cases Function.ofName? name with
    | none =>
      intro top rest n k a s h
      obtain ⟨_, _, _, _, _, _, h⟩ := outcome_bind₂_eq_ok h
      cases h
    | some fn =>
      refine .of_iff (.bind (resolveItems_reads args)
        (fun _ => .bind (resolveNamed_reads named)
          (fun _ => .map .fresh _ Code.number fun _ => rfl)
          Code.named fun _ => .bind fun _ => .pure rfl)
        Code.items fun _ => .bind fun _ => .bind fun _ => .pure rfl) ?_ ?_
      all_goals simp [mentions, defines]
  | choice line c y no inline =>
    cases no with
    | none =>
      refine .of_iff (.bind (resolve_reads c)
        (fun _ => .bind (.inScope (resolve_reads y))
          (fun _ => .map .fresh _ Code.number fun _ => rfl)
          (·.part 1) fun _ => .bind fun _ => .pure rfl)
        (·.part 0) fun _ => .bind fun _ => .bind fun _ => .pure rfl) ?_ ?_
      all_goals simp [mentions, defines]
    | some e =>
      refine .of_iff (.bind (resolve_reads c)
        (fun _ => .bind (.inScope (resolve_reads y))
          (fun _ => .bind (.inScope (resolve_reads e))
            (fun _ => .map .fresh _ Code.number fun _ => rfl)
            (·.part 2) fun _ => .bind fun _ => .pure rfl)
          (·.part 1) fun _ => .bind fun _ => .bind fun _ => .pure rfl)
        (·.part 0) fun _ => .bind fun _ => .bind fun _ => .bind fun _ => .pure rfl) ?_ ?_
      all_goals simp [mentions, defines]
  | loop line counterLine counter first last body =>
    refine .of_iff (.inScope (.bind (resolve_reads first)
      (fun e => .bind (.resolveDefine counterLine counter e)
        (fun _ => .bind (resolve_reads last)
          (fun _ => .map (resolve_reads body) _ (·.part 2) fun _ => rfl)
          (·.part 1) fun _ => .bind fun _ => .pure rfl)
        Code.number fun _ => .bind fun _ => .bind fun _ => .pure rfl)
      (·.part 0) fun _ => .bind fun _ => .bind fun _ => .bind fun _ => .pure rfl)) ?_ ?_
    all_goals grind [mentions, defines]
  | function line name params body => exact .throw _
  | define line name e =>
    refine .of_iff (.bind (resolve_reads e)
      (fun c => .map (.resolveDefine line name c) _ Code.number fun _ => rfl)
      (·.part 0) fun _ => .bind fun _ => .pure rfl) ?_ ?_
    all_goals simp [mentions, defines, or_comm]
  | assign line name e =>
    refine .of_iff (.bind (resolve_reads e) (fun _ => .map (.resolveTarget name) _ (·.part 1) fun _ => rfl)
      (·.part 0) fun _ => .bind fun _ => .pure rfl) ?_ ?_
    all_goals simp [mentions, defines]
  | inlined name params args body =>
    refine .of_iff (.inScope (.bind (resolveItems_reads args)
      (fun _ => .map (resolve_reads body) _ (·.part 0) fun _ => rfl)
      Code.items fun _ => .bind fun _ => .pure rfl)) ?_ ?_
    all_goals simp [mentions, defines]
  | empty | word => exact .throw _

theorem resolveItems_reads (ts : List Tree) : Reads (anyMentions · ts) (anyDefines · ts) (resolveItems ts) := by
  cases ts with
  | nil => exact .of_iff (.pure _) (by simp [anyMentions]) (by simp [anyDefines])
  | cons t ts =>
    refine .of_iff (.bind (resolve_reads t) (fun _ => .map (resolveItems_reads ts) _ List.tail fun _ => rfl)
      (·.headD default) fun _ => .bind fun _ => .pure rfl) ?_ ?_
    all_goals simp [anyMentions, anyDefines]

theorem resolveNamed_reads (ts : List (String × Tree)) :
    Reads (anyNamedMentions · ts) (anyNamedDefines · ts) (resolveNamed ts) := by
  match ts with
  | [] => exact .of_iff (.pure _) (by simp [anyNamedMentions]) (by simp [anyNamedDefines])
  | (k, t) :: ts =>
    refine .of_iff (.bind (resolve_reads t) (fun _ => .map (resolveNamed_reads ts) _ List.tail fun _ => rfl)
      (fun named => (named.headD default).2) fun _ => .bind fun _ => .pure rfl) ?_ ?_
    all_goals simp [anyNamedMentions, anyNamedDefines]

end

end Tree

end PineEngine.Script
