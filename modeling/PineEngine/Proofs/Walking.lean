import PineEngine.Proofs.Descent
import PineEngine.Proofs.Judgements

/-! # Judgements about evaluation

Besides what is built in, an evaluation writes entries into series, and keeps values for built-in variables,
definitions and choices. A judgement that is closed under writing holds of definitions, choices and loops if it holds of
keeping their values (`WriteClosed`).

A judgement that holds of an operator, a call, a definition, a choice and a loop as soon as it holds of their parts,
holds of the evaluation of all code (`EvalClosed.judged`). So does what is said of the evaluations in two scopes
(`CodeClosed.eval`).
-/

namespace PineEngine

open Script Builtin Computation Store List SeriesRef

namespace Machine

variable {J : Judgement} {given : List Value} {Ok : Code → Prop}

section Rounds

variable {scope : Scope} {code : Code} {up : Bool} {last : Value} {body : MachineM Value} {counter : Value} {m : Machine}

def someRounds (scope : Scope) (code : Code) (up : Bool) (last : Value) (body : MachineM Value) :
    Nat → Value → MachineM Value :=
  rounds scope code up last body fun _ => throw .endless

theorem rounds_succ (after : Value → MachineM Value) (n : Nat) :
    rounds scope code up last body after (n + 1) counter = (do
      let v ← body
      if ← truth (← compare .eq counter last) then pure v
      else
        let next ← advance up counter
        let _ ← setRegister scope code next
        rounds scope code up last body after n next) := by
  rw [rounds, round]
  simp only [bind_assoc]
  refine congrArg (body >>= ·) (funext fun v => congrArg (_ >>= ·) (funext fun w => congrArg (_ >>= ·) ?_))
  funext done
  cases done <;> simp

theorem outcome_rounds_succ (after : Value → MachineM Value) (n : Nat) :
    outcome (rounds scope code up last body after (n + 1) counter) m =
      match outcome (round scope code up last body counter) m with
      | (.ok (.over v), m') => (.ok v, m')
      | (.ok (.next next), m') => outcome (rounds scope code up last body after n next) m'
      | (.error e, m') => (.error e, m') := by
  rw [rounds, outcome_bind]
  rcases outcome (round scope code up last body counter) m with ⟨_ | _ | _, _⟩ <;> rfl

theorem someRounds_endless (never : countOn? scope code up last body counter m = none) (n : Nat) :
    (outcome (someRounds scope code up last body n counter) m).1 = .error .endless := by
  induction n generalizing counter m with
  | zero => rfl
  | succ n ih =>
    rw [someRounds, outcome_rounds_succ]
    rw [countOn?] at never
    split at never
    next => cases never
    next moved =>
      rw [show outcome (round scope code up last body counter) m = _ from moved]
      exact ih never
    next failed => rw [show outcome (round scope code up last body counter) m = _ from failed]
    next => cases never

theorem someRounds_over : ∀ counter m r, countOn? scope code up last body counter m = some r →
    r.1 ≠ .error .endless ∧ ∃ n, ∀ k, n ≤ k → outcome (someRounds scope code up last body k counter) m = r := by
  refine countOn?.partial_correctness scope code up last body _ fun go ih counter m r finished => ?_
  have later {n : Nat} (same : ∀ k, n ≤ k →
      outcome (rounds scope code up last body (fun _ => throw .endless) (k + 1) counter) m = r) :
      ∃ n, ∀ k, n ≤ k → outcome (someRounds scope code up last body k counter) m = r := by
    refine ⟨n + 1, fun k late => ?_⟩
    obtain _ | k := k
    · omega
    exact same k (by omega)
  simp only [outcome_rounds_succ] at later
  split at finished
  next ended =>
    cases finished
    rw [show outcome (round scope code up last body counter) m = _ from ended] at later
    exact ⟨by simp, later (n := 0) fun _ _ => rfl⟩
  next moved =>
    obtain ⟨ends, n, same⟩ := ih _ _ r finished
    rw [show outcome (round scope code up last body counter) m = _ from moved] at later
    exact ⟨ends, later same⟩
  next => cases finished
  next other failed =>
    cases finished
    rw [show outcome (round scope code up last body counter) m = _ from failed] at later
    exact ⟨fun same => other (Except.error.inj same), later (n := 0) fun _ _ => rfl⟩

theorem countOn_nears (counter : Value) :
    Nears (someRounds scope code up last body · counter) (countOn scope code up last body counter) := by
  intro m
  rw [show outcome (countOn scope code up last body counter) m =
    (countOn? scope code up last body counter m).getD (.error .endless, m) from rfl]
  cases given : countOn? scope code up last body counter m with
  | none => exact .inl ⟨rfl, someRounds_endless given⟩
  | some r => exact .inr (someRounds_over counter m r given)

end Rounds

abbrev Pairing :=
  ∀ {α : Type}, List Value → MachineM α → MachineM α → (α → List Value) → Prop

abbrev OfFirst (J : Judgement) : Pairing :=
  fun given x _ gives => J given x gives

variable {K : Pairing} {Own : Scope → Scope → Prop}

/-- What is said of two computations is closed under sequences, and holds of one that a judgement holds of. -/
structure PairClosed (J : Judgement) (K : Pairing) : Prop where
  same {α : Type} {given : List Value} {gives : α → List Value} {x : MachineM α} (judged : J given x gives) :
    K given x x gives
  join {α β : Type} {given : List Value} {gives : α → List Value} {gives' : β → List Value} {x y : MachineM α}
    {f g : α → MachineM β} (first : K given x y gives) (rest : ∀ a, K (gives a ++ given) (f a) (g a) gives') :
    K given (x >>= f) (y >>= g) gives'
  widen {α : Type} {given more : List Value} {gives : α → List Value} {x y : MachineM α} (judged : K given x y gives)
    (among : ∀ r, .series r ∈ given → .series r ∈ more) : K more x y gives
  look {α : Type} {given : List Value} {gives : α → List Value} {f g : Machine → MachineM α}
    (same : ∀ backlog m, f (m.behind backlog) = f m) (rest : ∀ m, K given (f m) (g m) gives) :
    K given (get >>= f) (get >>= g) gives

theorem BindClosed.pair (law : BindClosed J) : PairClosed J (OfFirst J) :=
  ⟨id, law.bind, law.mono, law.get⟩

/-- Scopes with the same definitions that are assigned to, and the scopes of loops in them. -/
structure Paired (Own : Scope → Scope → Prop) : Prop where
  fixed {scope scope' : Scope} (own : Own scope scope') : scope'.mutable = scope.mutable
  inner {scope scope' : Scope} (own : Own scope scope') :
    Own { scope with inLoop := true } { scope' with inLoop := true }

/-- Something is said of what is evaluated in two scopes, whatever is given to it. -/
def Evaluates (Own : Scope → Scope → Prop) (K : Pairing) (x : Scope → MachineM Value) : Prop :=
  ∀ ⦃scope scope' : Scope⦄, Own scope scope' → ∀ given, K given (x scope) (x scope') ([·])

def Stores (Own : Scope → Scope → Prop) (K : Pairing) (code : Code) : Prop :=
  ∀ ⦃scope scope' : Scope⦄, Own scope scope' → ∀ given v,
    K (v :: given) (setRegister scope code v) (setRegister scope' code v) ([·])

structure WriteClosed (J : Judgement) : Prop extends BuildClosed J where
  write {given : List Value} (code : Code) (v : Value) : J given (setRegisterValue code v) fun _ => []
  replace {given : List Value} (r cond other : SeriesRef) (n : Nat) :
    J (.series r :: given) (onStore (r.replaceUnless cond other n)) fun _ => []
  stamp {given : List Value} (r : SeriesRef) (valid : Int) :
    J (.series r :: given) (onStore (r.setValid valid)) fun _ => []
  advance {given : List Value} (up : Bool) (counter : Value) : J (counter :: given) (advance up counter) ([·])

/-- What is said of two computations is closed under what evaluations write. -/
structure WalkClosed (J : Judgement) (K : Pairing) : Prop extends WriteClosed J, PairClosed J K where
  limit {given : List Value} {x x' : Nat → MachineM Value} {y y' : MachineM Value} (nears : Nears x y)
    (nears' : Nears x' y') (each : ∀ n, K given (x n) (x' n) ([·])) : K given y y' ([·])

section Writing

variable (law : WalkClosed J K) {code : Code} {v : Value}

include law

theorem WalkClosed.here : K (v :: given) (Pure.pure v) (Pure.pure v) ([·]) :=
  law.same law.found

theorem WalkClosed.past {x y : MachineM Value} (judged : K given x y ([·])) :
    K (v :: given) x y ([·]) :=
  law.widen judged fun _ => mem_cons_of_mem v

theorem WalkClosed.builtinVariable (stores : Stores Own K code) {v : Variable}
    (judged : ∀ given, J given (variableValue v) ([·])) : Evaluates Own K (builtinVariable · code v) :=
  fun _ _ own _ => law.join (law.same (law.bar _)) fun _ => by
    split
    · refine law.join (law.same (judged _)) fun value => ?_
      split
      · refine law.join (law.same (law.reads (valid_reads _))) fun valid => ?_
        split
        · exact law.join (stores own _ _) fun _ => law.past law.here
        · exact law.here
      · exact law.here
    · refine law.same (law.bind (law.register code) fun held => ?_)
      split
      · refine law.bind (law.bar _) fun _ => law.bind (law.reads (outOfDate_reads _ _)) fun old => ?_
        split
        · exact law.bind (judged _) fun w => law.bind (law.write code w) fun _ => law.more law.found
        · exact law.found
      · exact judged _

variable {yes no : Scope → MachineM Value}

theorem WalkClosed.definition (paired : Paired Own) (stores : Stores Own K code) (judged : Evaluates Own K yes) :
    Evaluates Own K fun scope => definition scope code (yes scope) :=
  fun _ _ own _ => law.join (law.same (law.register code)) fun held => by
    split
    · refine law.join (judged own _) fun v => ?_
      rw [paired.fixed own]
      split
      · exact law.join (law.same (law.startValue _ v)) fun _ => law.join (law.same (law.barCount _)) fun _ =>
          law.join (law.same (law.builds (unknown_builds _ _))) fun _ => stores own _ _
      · exact stores own _ v
    · refine law.join (law.same (law.bar _)) fun _ => law.join (law.same (law.reads (outOfDate_reads _ _)))
        fun old => ?_
      split
      · exact law.join (judged own _) fun v => law.join (law.same (law.now _ v)) fun w =>
          law.join (law.same (law.write code w)) fun _ => law.past law.here
      · exact law.here
    · exact law.here

section Choices

variable (judgedYes : Evaluates Own K yes) (judgedNo : Evaluates Own K no)

include judgedYes judgedNo

omit law in
theorem Evaluates.branch (t : Bool) : Evaluates Own K fun scope => branch t (yes scope) (no scope) := by
  cases t with
  | true => exact judgedYes
  | false => exact judgedNo

theorem WalkClosed.chooseNew (inline : Bool) (c : SeriesRef) :
    Evaluates Own K fun scope => chooseNew inline c (yes scope) (no scope) :=
  fun _ _ own _ => law.join (law.same (law.reads (filled_reads c))) fun _ => by
    split
    · refine law.join (law.same (law.reads (length_reads c))) fun n => law.join (judgedYes own _) fun a =>
        law.join (law.same (law.copied _ n a)) fun r => law.join (judgedNo own _) fun b =>
          law.join (law.same (law.repeated _ n b)) fun other => law.same ?_
      exact law.bind (law.grows (finite_grows c)) fun cond => law.bind (law.more (law.replace r cond other n))
        fun _ => law.bind (law.reads (valid_reads c)) fun valid => law.bind (law.more (law.stamp r valid))
          fun _ => law.more law.found
    · exact law.join (law.same (law.bar _)) fun _ => law.join (law.same (law.reads (holdsAt_reads c _))) fun t =>
        law.join (judgedYes.branch judgedNo t own _) fun v => law.join (law.same (law.started _ c v)) fun _ => law.here

theorem WalkClosed.choose (stores : Stores Own K code) (inline : Bool) (cond : Value) :
    Evaluates Own K fun scope => choose scope code inline cond (yes scope) (no scope) := by
  intro scope scope' own given
  unfold Machine.choose
  split
  next c =>
    refine law.join (law.same (law.register code)) fun held => ?_
    split
    · refine law.join (law.same (law.bar _)) fun _ => law.join (law.same (law.reads (holdsAt_reads c _))) fun t =>
        law.join (judgedYes.branch judgedNo t own _) fun v =>
          law.join (law.same (law.reads (filled_reads _))) fun filled => ?_
      split
      · exact law.join (law.same (law.now _ v)) fun w => law.join (law.same (law.write code w)) fun _ => law.past law.here
      · exact law.past law.here
    · exact law.join (law.chooseNew judgedYes judgedNo inline c own _) fun v => stores own _ v
  next => exact law.join (law.same (law.lift_other _)) fun t => judgedYes.branch judgedNo t own _

end Choices

section Rounds

variable {scope scope' : Scope} (own : Own scope scope') (stores : Stores Own K code) (up : Bool) (last : Value)
  {body body' : MachineM Value} (judged : ∀ given, K given body body' ([·]))

include own stores judged

theorem WalkClosed.rounds {after after' : Value → MachineM Value}
    (goes : ∀ given counter, K (counter :: given) (after counter) (after' counter) ([·])) (n : Nat)
    (counter : Value) : K (counter :: given) (rounds scope code up last body after n counter)
      (rounds scope' code up last body' after' n counter) ([·]) := by
  induction n generalizing counter given with
  | zero => exact goes given counter
  | succ n ih =>
    rw [rounds_succ, rounds_succ]
    refine law.join (judged _) fun v => law.join (law.same (law.compare _ _ _ _)) fun w =>
      law.join (law.same (law.truth _ w)) fun done => ?_
    split
    · exact law.past law.here
    · exact law.join (law.same (law.more (law.more (law.advance up counter)))) fun next =>
        law.join (stores own _ next) fun _ => law.past (ih next)

theorem WalkClosed.iterate (n : Nat) (counter : Value) : K (counter :: given)
    (iterate scope code up last body n counter) (iterate scope' code up last body' n counter) ([·]) :=
  law.rounds own stores up last judged (fun _ counter => law.limit (countOn_nears counter) (countOn_nears counter) fun n =>
    law.rounds own stores up last judged (fun _ _ => law.same (law.throw _)) n counter) n counter

end Rounds

theorem WalkClosed.loop (paired : Paired Own) (stores : Stores Own K code)
    {first last body : Scope → MachineM Value} (judgedFirst : Evaluates Own K first) (judgedLast : Evaluates Own K last)
    (judgedBody : Evaluates Own K body) :
    Evaluates Own K fun scope => loop scope code (first scope) (last scope) (body scope) := by
  intro scope scope' own given
  refine law.join (law.definition paired stores judgedFirst own _) fun counter => law.join (judgedLast own _) fun last =>
    law.join (law.same (law.compare _ _ _ _)) fun w => law.join (law.same (law.truth _ w)) fun up =>
      law.join (law.same (law.firstEntry _ counter)) fun start => ?_
  refine law.join (law.past (law.past (law.iterate own stores up last (judgedBody own) _ counter))) fun v => ?_
  exact law.join (law.past (law.past (law.past (stores own _ counter)))) fun _ => law.past law.here

end Writing

variable {yes no : MachineM Value}

theorem branch_obeys {R : Machine → Machine → Prop} (t : Bool) (obeysYes : Obeys R yes) (obeysNo : Obeys R no) :
    Obeys R (branch t yes no) := by
  cases t with
  | true => exact obeysYes
  | false => exact obeysNo

/-- A condition among others: a series is combined with the one before it, a number may be the answer. -/
def connect (isAnd : Bool) (more : Option SeriesRef → MachineM Value) (found : Option SeriesRef) (v : Value) :
    MachineM Value := do
  match v, found with
  | .series r, none => more (some r)
  | .series r, some s => more (some (← onStore (r.logic isAnd (.series s))))
  | v, found => if v.isTrue == isAnd then more found else pure v

def evalConnected (isAnd : Bool) (scope : Scope) (found : Option SeriesRef) (cs : List Code) : MachineM Value :=
  if isAnd then evalEvery scope found cs else evalAny scope found cs

theorem evalConnected_cons (isAnd : Bool) (scope : Scope) (found : Option SeriesRef) (c : Code) (rest : List Code) :
    evalConnected isAnd scope found (c :: rest) =
      eval scope c >>= connect isAnd (evalConnected isAnd scope · rest) found := by
  have same (b : Bool) (x y : MachineM Value) : (if b then x else y) = if b == true then x else y := by
    cases b <;> rfl
  have turned (b : Bool) (x y : MachineM Value) : (if b then x else y) = if b == false then y else x := by
    cases b <;> rfl
  cases isAnd with
  | true =>
    refine congrArg (eval scope c >>= ·) (funext fun v => ?_)
    cases v with
    | series r => cases found <;> rfl
    | _ => exact same _ _ _
  | false =>
    refine congrArg (eval scope c >>= ·) (funext fun v => ?_)
    cases v with
    | series r => cases found <;> rfl
    | _ => exact turned _ _ _

def otherwise (scope : Scope) : Option Code → MachineM Value
  | none => pure .absent
  | some e => eval scope e

/-- Something is said of the evaluations of code with `Ok` in two scopes if it is said of the evaluations of its
    parts. -/
structure CodeClosed (Own : Scope → Scope → Prop) (Ok : Code → Prop) (J : Judgement) (K : Pairing) : Prop
    extends BindClosed J, PairClosed J K where
  paired : Paired Own
  part {c d : Code} (ok : Ok c) (among : d ∈ c.evaluated) : Ok d
  literal {line : Line} {v : Value} (ok : Ok (.literal line v)) (given : List Value) : J given (Pure.pure v) ([·])
  logic {given : List Value} (isAnd : Bool) (r : SeriesRef) (v : Value) :
    J given (onStore (r.logic isAnd v)) fun r => [.series r]
  now {given : List Value} (v : Value) : J given (now v) fun _ => []
  binary {given : List Value} (op : BinaryOp) (a b : Value) : J (b :: a :: given) (binary op a b) ([·])
  unary {given : List Value} (op : UnaryOp) (v : Value) : J (v :: given) (unary op v) ([·])
  call (code : Code) (name : String) (fn : Function) (args : List Value) (named : Fields) :
    J (givenTo args named) (call code name fn args named) ([·])
  assign {line : Line} {name : String} {target e : Code} (ok : Ok (.assign line name target e)) {given : List Value}
    (v : Value) : J given (setRegisterValue target v) fun _ => []
  builtin {line : Line} {id : Nat} {name : String} {v : Variable} (ok : Ok (.builtin line id name v)) :
    Evaluates Own K (builtinVariable · (.builtin line id name v) v)
  choice {line : Line} {id : Nat} {c y : Code} {no : Option Code} {inline : Bool}
    (ok : Ok (.choice line id c y no inline)) (judgedYes : Evaluates Own K (eval · y))
    (judgedNo : Evaluates Own K (otherwise · no)) (cond : Value) : Evaluates Own K fun scope =>
      choose scope (.choice line id c y no inline) inline cond (eval scope y) (otherwise scope no)
  loop {line counterLine : Line} {id : Nat} {name : String} {first last body : Code}
    (ok : Ok (.loop line counterLine id name first last body)) (judgedFirst : Evaluates Own K (eval · first))
    (judgedLast : Evaluates Own K (eval · last))
    (judgedBody : Evaluates Own K fun scope => eval { scope with inLoop := true } body) :
    Evaluates Own K fun scope => loop scope (.define counterLine id name first) (eval scope first) (eval scope last)
      (eval { scope with inLoop := true } body)
  define {line : Line} {id : Nat} {name : String} {e : Code} (ok : Ok (.define line id name e))
    (judged : Evaluates Own K (eval · e)) :
    Evaluates Own K fun scope => definition scope (.define line id name e) (eval scope e)

theorem WalkClosed.codeClosed (law : WalkClosed J K)
    (paired : Paired Own) (part : ∀ {c d : Code}, Ok c → d ∈ c.evaluated → Ok d)
    (literal : ∀ {line : Line} {v : Value}, Ok (.literal line v) → ∀ given, J given (Pure.pure v) ([·]))
    (builtin : ∀ {line : Line} {id : Nat} {name : String} {v : Variable}, Ok (.builtin line id name v) →
      Evaluates Own K (Machine.builtinVariable · (.builtin line id name v) v))
    (stores : ∀ {code : Code} {id : Nat}, Ok code → code.id? = some id →
      (∀ line name v, code ≠ .builtin line id name v) → Stores Own K code) : CodeClosed Own Ok J K where
  toBindClosed := law.toBindClosed
  toPairClosed := law.toPairClosed
  paired := paired
  part := part
  literal := literal
  logic isAnd r v := law.builds (logic_builds isAnd r v)
  now := law.now _
  binary := law.binary _
  unary := law.unary _
  call := law.call
  assign _ _ v := law.write _ v
  builtin := builtin
  choice ok judgedYes judgedNo cond := law.choose judgedYes judgedNo (stores ok rfl nofun) _ cond
  loop ok := law.loop paired (stores (part ok (.head _)) rfl nofun)
  define ok := law.definition paired (stores ok rfl nofun)

theorem mem_gathered {r v : Value} {vs : List Value} (mem : r ∈ v :: vs) : r ∈ vs ++ ([v] ++ given) := by
  rcases mem_cons.mp mem with first | later
  · exact mem_append_right _ (mem_append_left _ (mem_singleton.mpr first))
  · exact mem_append_left _ later

namespace CodeClosed

variable {Ok : Code → Prop} (law : CodeClosed Own Ok J K)

include law

theorem part_named {id : Nat} {name : String} {fn : Function} {args : List Code} {named : List (String × Code)}
    (ok : Ok (.call id name fn args named)) (k : String) (c : Code) (mem : (k, c) ∈ named) : Ok c :=
  law.part ok (mem_append_right _ (mem_map_of_mem mem))

mutual

theorem eval (code : Code) (ok : Ok code) : Evaluates Own K (Machine.eval · code) := by
  intro scope scope' own given
  cases code with
  | block line items =>
    exact law.widen (evalBlock .absent items (fun c => law.part ok) own given)
      fun _ mem => (mem_cons.mp mem).resolve_left nofun
  | literal line v => exact law.same (law.literal ok given)
  | list line items =>
    exact law.join (evalAll items (fun c => law.part ok) own given) fun _ => law.same (law.plain nofun)
  | anyOf line items => exact evalConnected false none items (fun c => law.part ok) own given
  | allOf line items => exact evalConnected true none items (fun c => law.part ok) own given
  | binary line op a b =>
    exact law.join (eval a (law.part ok (by simp [Code.evaluated, Code.children])) own _) fun v =>
      law.join (eval b (law.part ok (by simp [Code.evaluated, Code.children])) own _) fun w =>
        law.same (law.binary op v w)
  | unary line op a => exact law.join (eval a (law.part ok (.head _)) own _) fun v => law.same (law.unary op v)
  | builtin line id name v => exact law.builtin ok own given
  | «variable» line name target => exact eval target (law.part ok (.head _)) own given
  | call id name fn args named =>
    refine law.look (fun _ _ => rfl) fun m => ?_
    split
    · exact law.same (law.plain nofun)
    · refine law.join (evalAll args (fun c mem => law.part ok (mem_append_left _ mem)) own _) fun vs =>
        law.join (evalNamed named (law.part_named ok) own _) fun kws => law.same ?_
      refine law.mono (law.call _ name fn vs kws) fun r mem => ?_
      rcases mem_append.mp mem with placed | byName
      · exact mem_append_right _ (mem_append_left _ placed)
      · exact mem_append_left _ byName
  | choice line id c y no inline =>
    have judged := eval y (law.part ok (.tail _ (.head _)))
    have chosen := eval c (law.part ok (.head _)) own given
    cases no with
    | none => exact law.join chosen fun cond => law.choice ok judged (fun _ _ _ _ => law.same (law.plain nofun)) cond own _
    | some e =>
      have other := eval e (law.part ok (.tail _ (.tail _ (.head _))))
      exact law.join chosen fun cond => law.choice ok judged other cond own _
  | loop line counterLine id name first last body =>
    have counter : Ok (.define counterLine id name first) := law.part ok (.head _)
    have judged := eval first (law.part counter (.head _))
    have judged' := eval last (law.part ok (.tail _ (.head _)))
    have within := eval body (law.part ok (.tail _ (.tail _ (.head _))))
    exact law.loop ok judged judged' (fun _ _ own => within (law.paired.inner own)) own given
  | define line id name e => exact law.define ok (eval e (law.part ok (.head _))) own given
  | assign line name target e =>
    exact law.join (eval e (law.part ok (.head _)) own _) fun v => law.same (law.bind (law.now v) fun w =>
      law.bind (law.assign ok w) fun _ => law.plain nofun)
  | inlined name params args body =>
    refine law.join (law.widen (evalBlock .absent args
      (fun c mem => law.part ok (mem_append_left _ mem)) own given)
        fun _ mem => (mem_cons.mp mem).resolve_left nofun) fun _ => ?_
    exact eval body (law.part ok (mem_append_right _ (.head _))) own _

theorem evalBlock (last : Value) (items : List Code) (ok : ∀ c ∈ items, Ok c) {scope scope' : Scope}
    (own : Own scope scope') (given : List Value) :
    K (last :: given) (Machine.evalBlock scope last items) (Machine.evalBlock scope' last items) ([·]) := by
  cases items with
  | nil => exact law.same law.found
  | cons c rest =>
    have ok := forall_mem_cons.mp ok
    exact law.join (eval c ok.1 own _) fun v => evalBlock v rest ok.2 own _

theorem evalAll (items : List Code) (ok : ∀ c ∈ items, Ok c) {scope scope' : Scope} (own : Own scope scope')
    (given : List Value) : K given (Machine.evalAll scope items) (Machine.evalAll scope' items) id := by
  cases items with
  | nil => exact law.same (law.pure nofun)
  | cons c rest =>
    have ok := forall_mem_cons.mp ok
    refine law.join (eval c ok.1 own _) fun v => law.join (evalAll rest ok.2 own _) fun vs => ?_
    exact law.same (law.pure fun _ => mem_gathered)

theorem evalNamed (named : List (String × Code)) (ok : ∀ k c, (k, c) ∈ named → Ok c) {scope scope' : Scope}
    (own : Own scope scope') (given : List Value) :
    K given (Machine.evalNamed scope named) (Machine.evalNamed scope' named) (·.map Prod.snd) := by
  match named with
  | [] => exact law.same (law.pure nofun)
  | (k, c) :: rest =>
    refine law.join (eval c (ok k c (.head _)) own _) fun v =>
      law.join (evalNamed rest (fun k c mem => ok k c (.tail _ mem)) own _) fun vs => ?_
    exact law.same (law.pure fun _ => mem_gathered)

theorem evalConnected (isAnd : Bool) (found : Option SeriesRef) (items : List Code) (ok : ∀ c ∈ items, Ok c)
    {scope scope' : Scope} (own : Own scope scope') (given : List Value) :
    K (found.toList.map .series ++ given) (Machine.evalConnected isAnd scope found items)
      (Machine.evalConnected isAnd scope' found items) ([·]) := by
  cases items with
  | nil =>
    have answer (scope : Scope) : Machine.evalConnected isAnd scope found [] = Pure.pure (match found with
        | some r => .series r
        | none => .bool isAnd) := by
      cases isAnd <;> rfl
    rw [answer, answer]
    refine law.same (law.pure fun r mem => ?_)
    cases found with
    | none => cases mem_singleton.mp mem
    | some s => exact mem_append_left _ mem
  | cons c items =>
    have ok := forall_mem_cons.mp ok
    rw [evalConnected_cons, evalConnected_cons]
    refine law.join (eval c ok.1 own _) fun v => ?_
    unfold connect
    split
    · exact evalConnected isAnd (some _) items ok.2 own given
    · exact law.join (law.same (law.logic _ _ _)) fun t => evalConnected isAnd (some t) items ok.2 own _
    · split
      · exact law.widen (evalConnected isAnd found items ok.2 own given) fun _ => mem_cons_of_mem _
      · exact law.same law.found

end

end CodeClosed

def OneScope (ids : List Nat) (scope scope' : Scope) : Prop :=
  scope.mutable = ids ∧ scope = scope'

theorem Paired.one (ids : List Nat) : Paired (OneScope ids) where
  fixed own := by rw [own.2]
  inner own := ⟨own.1, by rw [own.2]⟩

theorem OneScope.of (scope : Scope) : OneScope scope.mutable scope scope :=
  ⟨rfl, rfl⟩

/-- A judgement holds of the evaluation of code with `Ok` if it holds of the evaluation of its parts. -/
abbrev EvalClosed (ids : List Nat) (Ok : Code → Prop) (J : Judgement) : Prop :=
  CodeClosed (OneScope ids) Ok J (OfFirst J)

theorem EvalClosed.judged {ids : List Nat} (law : EvalClosed ids Ok J) {scope : Scope}
    (own : scope.mutable = ids) (code : Code) (ok : Ok code) (given : List Value) :
    J given (Machine.eval scope code) ([·]) :=
  law.eval code ok ⟨own, rfl⟩ given

end Machine

end PineEngine
