import PineEngine.Proofs.Numbering
import PineEngine.Proofs.Scoping

/-! # Calls of functions and the meaning of names

A call of a function is meant to bind each parameter to what its argument means where the call stands, and to leave
to every other name of the body the meaning that it has where the function is defined (`lexicalCall`). Expansion
puts the body in the place of the call instead, behind definitions of the parameters that see each other. The
two agree just if no argument mentions a parameter before its own, and no other name of the body changes its
meaning on the way (`call_lexical_iff`).
-/

namespace PineEngine.Script

variable {scope : List (String × Code)} {scopes : Scopes} {line : Line} {low : Nat}

open Computation

def ResolveM.under {α : Type} (scopes : Scopes) (x : ResolveM α) : ResolveM α := do
  let s ← get
  set { s with scopes := scopes }
  tryFinally x (modify fun t => { t with scopes := s.scopes })

/-- Definitions of parameters, each by what its argument means where the call stands. -/
def bindParams (line : Line) : List (String × Tree) → ResolveM (List (String × Code))
  | [] => pure []
  | (p, e) :: rest => do
    let c ← ResolveM.inScope e.resolve
    let id ← ResolveM.fresh
    let bound ← bindParams line rest
    pure ((p, .define line id p c) :: bound)

/-- A call as it is meant, of a function that is defined under the scopes `home`. -/
def lexicalCall (home : Scopes) (name : String) (f : UserFunction) (args : List Tree) : ResolveM Code := do
  let bound ← bindParams f.line (f.params.zip args)
  let body ← ResolveM.under (bound.reverse :: home) f.body.resolve
  pure (.inlined name f.params (bound.map (·.2)) body)

/-- No argument mentions a parameter before its own, nor a name in `seen`. -/
def Unseen (seen : List String) : List (String × Tree) → Prop
  | [] => True
  | (p, e) :: rest => (∀ x ∈ seen, e.mentions x = false) ∧ Unseen (p :: seen) rest

theorem outcome_under {α : Type} (scopes : Scopes) (x : ResolveM α) (s : Resolution) :
    outcome (ResolveM.under scopes x) s =
      ((outcome x { s with scopes := scopes }).1, { (outcome x { s with scopes := scopes }).2 with scopes := s.scopes }) := by
  have replaced : outcome (set { s with scopes := scopes } : ResolveM Unit) s = (.ok (), { s with scopes := scopes }) := rfl
  rw [ResolveM.under, get_bind, bind_ok replaced, outcome_tryFinally]

theorem isSome_lookup_iff {x : String} :
    (scope.lookup x).isSome ↔ x ∈ scope.map (·.1) := by
  simp [List.lookup_isSome_iff]

theorem agree_fresh_iff (names : String → Prop)
    (known : ∀ x d id, scopes.find? x = some d → d.id? = some id → id < low)
    (own : ∀ entry ∈ scope, ∃ id, entry.2.id? = some id ∧ low ≤ id) :
    Scopes.Agree names ([] :: scopes) (scope :: scopes) ↔ ∀ x ∈ scope.map (·.1), ¬ names x := by
  constructor
  · intro agree x mem named
    have same := agree x named
    rw [Scopes.find?_cons, Scopes.find?_cons] at same
    obtain ⟨d, found⟩ := Option.isSome_iff_exists.mp (isSome_lookup_iff.mpr mem)
    rw [found] at same
    obtain ⟨before, after, split, _⟩ := List.lookup_eq_some_iff.mp found
    obtain ⟨id, numbered, high⟩ := own (x, d) (by simp [split])
    have low := known x d id (by simpa using same) numbered
    omega
  · intro hidden x named
    rw [Scopes.find?_cons, Scopes.find?_cons]
    have absent : scope.lookup x = none := by
      rw [← Option.not_isSome_iff_eq_none, isSome_lookup_iff]
      exact fun mem => hidden x mem named
    rw [absent]
    rfl

theorem expression_reads {e : Tree} (expression : ∀ x, e.defines x = false) {scopes₁ : Scopes} {n n₁ : Nat}
    {k k₁ : List Nat} {c : Code} (h : outcome e.resolve ⟨[] :: scopes, n, k⟩ = (.ok c, ⟨scopes₁, n₁, k₁⟩)) :
    scopes₁ = [] :: scopes ∧ n ≤ n₁ ∧ ∀ scope,
      (Scopes.Agree (e.mentions ·) ([] :: scopes) (scope :: scopes) →
        outcome e.resolve ⟨scope :: scopes, n, k⟩ = (.ok c, ⟨scope :: scopes, n₁, k₁⟩)) ∧
      ∀ s', outcome e.resolve ⟨scope :: scopes, n, k⟩ = (.ok c, s') →
        s' = ⟨scope :: scopes, n₁, k₁⟩ ∧ Scopes.Agree (e.mentions ·) ([] :: scopes) (scope :: scopes) := by
  obtain ⟨new, after, ordered, defined, both⟩ := e.resolve_reads h
  have nothing : new = [] := by
    cases new with
    | nil => rfl
    | cons entry new =>
      have head : e.defines entry.1 = true := (defined entry.1).mp (by simp)
      rw [expression] at head
      cases head
  cases nothing
  exact ⟨after, ordered, fun scope => both scope scopes⟩

/-- The definitions of the parameters in the place of a call are those that are meant just if no argument mentions
    a parameter before its own. -/
theorem bindParams_iff
    (known : ∀ x d id, scopes.find? x = some d → d.id? = some id → id < low) {params : List (String × Tree)}
    (expressions : ∀ p ∈ params, ∀ x, p.2.defines x = false) (scope : List (String × Code))
    (own : ∀ entry ∈ scope, ∃ id, entry.2.id? = some id ∧ low ≤ id) {n : Nat} (later : low ≤ n) {k : List Nat}
    {bound : List (String × Code)} {s : Resolution}
    (meant : outcome (bindParams line params) ⟨scopes, n, k⟩ = (.ok bound, s)) :
    s.scopes = scopes ∧ bound.map (·.1) = params.map (·.1) ∧
      (Unseen (scope.map (·.1)) params →
        outcome (Tree.resolveItems (params.map fun (p, e) => .define line p e)) ⟨scope :: scopes, n, k⟩ =
          (.ok (bound.map (·.2)), ⟨(bound.reverse ++ scope) :: scopes, s.next, s.mutable⟩)) ∧
      ∀ s', outcome (Tree.resolveItems (params.map fun (p, e) => .define line p e)) ⟨scope :: scopes, n, k⟩ =
          (.ok (bound.map (·.2)), s') →
        s' = ⟨(bound.reverse ++ scope) :: scopes, s.next, s.mutable⟩ ∧ Unseen (scope.map (·.1)) params := by
  induction params generalizing scope n k bound with
  | nil =>
    cases meant
    refine ⟨rfl, rfl, fun _ => rfl, fun s' h => ?_⟩
    cases h
    exact ⟨rfl, trivial⟩
  | cons param params ih =>
    obtain ⟨p, e⟩ := param
    obtain ⟨c, s₁, first, meant⟩ := outcome_bind_eq_ok meant
    rw [outcome_inScope] at first
    rcases inner : outcome e.resolve ⟨[] :: scopes, n, k⟩ with ⟨r, ⟨scopes₁, n₁, k₁⟩⟩
    rw [inner] at first
    cases first
    obtain ⟨rfl, ordered, both⟩ := expression_reads (expressions (p, e) (.head _)) inner
    obtain ⟨id, s₂, numbered, meant⟩ := outcome_bind_eq_ok meant
    cases numbered
    obtain ⟨rest, s₃, meant, made⟩ := outcome_bind_eq_ok meant
    cases made
    have own' : ∀ entry ∈ (p, .define line n₁ p c) :: scope, ∃ id, entry.2.id? = some id ∧ low ≤ id := by
      intro entry mem
      rcases List.mem_cons.mp mem with rfl | old
      · exact ⟨n₁, rfl, by omega⟩
      · exact own entry old
    have hidden := agree_fresh_iff (e.mentions ·) known own
    obtain ⟨same, names, forward, backward⟩ :=
      ih (fun p mem => expressions p (.tail _ mem)) _ own' (by omega : low ≤ n₁ + 1) meant
    have mentioned : (∀ x ∈ scope.map (·.1), ¬ e.mentions x = true) ↔ ∀ x ∈ scope.map (·.1), e.mentions x = false := by
      simp
    refine ⟨same, by simp [names], fun unseen => ?_, fun s' h => ?_⟩
    · have here := (both scope).1 (hidden.mpr (mentioned.mpr unseen.1))
      have defined : outcome (Tree.resolve (.define line p e)) ⟨scope :: scopes, n, k⟩ =
          (.ok (.define line n₁ p c), ⟨((p, .define line n₁ p c) :: scope) :: scopes, n₁ + 1, k₁⟩) := by
        unfold Tree.resolve
        rw [bind_ok here]
        rfl
      rw [List.map_cons, Tree.resolveItems, bind_ok defined, bind_ok (forward unseen.2)]
      simp
    · obtain ⟨d, s₁, defined, ds, s₂, others, h⟩ := outcome_bind₂_eq_ok h
      cases h
      obtain ⟨c', t, resolved, id, t', numbered, defined⟩ := outcome_bind₂_eq_ok defined
      cases defined
      obtain ⟨state, agree⟩ := (both scope).2 t resolved
      cases state
      cases numbered
      obtain ⟨state, unseen⟩ := backward s' others
      refine ⟨by rw [state]; simp, mentioned.mp (hidden.mp agree), unseen⟩

theorem agree_params_iff (bound : List (String × Code)) (names : String → Prop) (home scopes : Scopes) :
    Scopes.Agree names (bound.reverse :: home) (bound.reverse :: scopes) ↔
      ∀ x, names x → x ∉ bound.map (·.1) → scopes.find? x = home.find? x := by
  refine forall_congr' fun x => imp_congr_right fun _ => ?_
  rw [Scopes.find?_cons, Scopes.find?_cons]
  have mem : (bound.reverse.lookup x).isSome ↔ x ∈ bound.map (·.1) := by
    simp
  rw [← mem]
  cases bound.reverse.lookup x <;> simp [eq_comm]

theorem Code.fits_number {nodes : List Code} {c : Code} {id : Nat} (fit : c.fits nodes) (numbered : c.id? = some id) :
    id < nodes.length := by
  have placed : ∃ node, nodes[id]? = some node := by
    cases c with
    | builtin =>
      cases numbered
      exact ⟨_, fit⟩
    | choice line _ cond yes no inline =>
      cases numbered
      cases no <;> exact ⟨_, fit.1⟩
    | call | define =>
      cases numbered
      exact ⟨_, fit.1⟩
    | _ => cases numbered
  obtain ⟨node, placed⟩ := placed
  exact (List.getElem?_eq_some_iff.mp placed).1

theorem expand_call {fs fs₁ fs₂ : UserFunctions} {name : String} {f : UserFunction} (found : fs.lookup name = some f)
    (two : 2 ≤ f.params.length) {written args : List Tree}
    (expanded : (Tree.expandItems written).run fs = .ok (args, fs₁)) {byName byName' : List (String × Tree)}
    (expandedNamed : (Tree.expandNamed byName).run fs₁ = .ok (byName', fs₂)) :
    (Tree.call line name written byName).expand.run fs =
      .ok (.inlined name f.params ((f.params.zip args).map fun (p, e) => .define f.line p e) f.body, fs₂) := by
  have called : Tree.callUser name f args =
      .ok (.inlined name f.params ((f.params.zip args).map fun (p, e) => .define f.line p e) f.body) := by
    obtain ⟨_, params, _⟩ := f
    match params, two with
    | _ :: _ :: _, _ => rfl
  unfold Tree.expand
  simp only [StateT.run_bind, StateT.run_get, pure_bind, found, Option.isNone_some, Bool.false_and, Bool.false_eq_true,
    if_false, expanded]
  change (do
    let r ← (Tree.expandNamed byName).run fs₁
    (liftM (Tree.callUser name f args) : ExpandM Tree).run r.2) = _
  rw [expandedNamed]
  rw [called]
  rfl

/-- A call as it is compiled is the call as it is meant just if no argument mentions a parameter before its own, and
    every other name of the body means the same where the call stands as where the function is defined. -/
theorem call_lexical_iff {nodes : List Code} {σ σ' : Resolution} (fits : σ.Fits nodes) {fs fs₁ fs₂ : UserFunctions}
    {name : String} {f : UserFunction} (found : fs.lookup name = some f) (two : 2 ≤ f.params.length)
    (line : Line) {written args : List Tree} (expanded : (Tree.expandItems written).run fs = .ok (args, fs₁))
    {byName byName' : List (String × Tree)} (expandedNamed : (Tree.expandNamed byName).run fs₁ = .ok (byName', fs₂))
    (each : args.length = f.params.length) (expressions : ∀ e ∈ args, ∀ x, e.defines x = false)
    {home : Scopes} {c : Code} (meant : outcome (lexicalCall home name f args) σ = (.ok c, σ')) :
    ∃ t, (Tree.call line name written byName).expand.run fs = .ok (t, fs₂) ∧
      (outcome t.resolve σ = (.ok c, σ') ↔
        Unseen [] (f.params.zip args) ∧
          ∀ x, f.body.mentions x → x ∉ f.params → σ.scopes.find? x = home.find? x) := by
  refine ⟨_, expand_call found two expanded expandedNamed, ?_⟩
  obtain ⟨scopes, n, k⟩ := σ
  obtain ⟨bound, s₁, binds, body, s₂, inside, meant⟩ := outcome_bind₂_eq_ok meant
  cases meant
  rw [outcome_under] at inside
  rcases inner : outcome f.body.resolve { s₁ with scopes := bound.reverse :: home } with ⟨r, s₃⟩
  rw [inner] at inside
  cases inside
  have known (x : String) (d : Code) (id : Nat) (here : scopes.find? x = some d) (numbered : d.id? = some id) : id < n := by
    have low := Code.fits_number (find_fits fits here) numbered
    exact Nat.lt_of_lt_of_eq low fits.next.symm
  have arguments : ∀ p ∈ f.params.zip args, ∀ x, p.2.defines x = false :=
    fun p among => expressions p.2 (List.of_mem_zip among).2
  obtain ⟨same, names, forward, backward⟩ := bindParams_iff known arguments [] nofun (Nat.le_refl n) binds
  obtain ⟨new, after, _, _, both⟩ := f.body.resolve_reads inner
  have params : bound.map (·.1) = f.params := by
    rw [names, List.map_fst_zip]
    omega
  have agree := agree_params_iff bound (f.body.mentions ·) home scopes
  rw [params] at agree
  rw [← agree]
  unfold Tree.resolve
  rw [outcome_inScope]
  obtain ⟨scopes₁, n₁, k₁⟩ := s₁
  obtain rfl : scopes₁ = scopes := same
  constructor
  · intro given
    rcases run : outcome (do
        let args ← Tree.resolveItems ((f.params.zip args).map fun (p, e) => .define f.line p e)
        let body ← f.body.resolve
        pure (Code.inlined name f.params args body)) ⟨[] :: scopes₁, n, k⟩ with ⟨r, t⟩
    rw [run] at given
    cases (Prod.mk.inj given).1
    obtain ⟨ds, t₁, defined, b, t₂, resolved, run⟩ := outcome_bind₂_eq_ok run
    cases run
    obtain ⟨state, unseen⟩ := backward t₁ defined
    cases state
    rw [List.append_nil] at resolved
    exact ⟨unseen, ((both bound.reverse scopes₁).2 _ resolved).2⟩
  · rintro ⟨unseen, kept⟩
    rw [bind_ok (forward unseen), List.append_nil, bind_ok ((both bound.reverse scopes₁).1 kept)]
    rfl

/-- The function of `f(a, b) => a * 10 + b`. -/
def tensAndUnits : UserFunction where
  line := some 3
  params := ["a", "b"]
  body := .binary (some 3) .add
    (.binary (some 3) .mul (.variable (some 3) "a") (.literal (some 3) (.int 10))) (.variable (some 3) "b")

def defined (line id : Nat) (name : String) (value : Int) : Code :=
  .define (some line) id name (.literal (some line) (.int value))

/-- After `a = 1` and `b = 2`. -/
def afterTwo : Resolution where
  scopes := [[("b", defined 2 1 "b" 2), ("a", defined 1 0 "a" 1)]]
  next := 2

theorem afterTwo_fits : afterTwo.Fits [defined 1 0 "a" 1, defined 2 1 "b" 2] := by
  refine ⟨rfl, fun scope mem entry here => ?_⟩
  cases List.mem_singleton.mp mem
  simp only [List.mem_cons, List.not_mem_nil, or_false] at here
  rcases here with rfl | rfl
  · exact ⟨rfl, trivial⟩
  · exact ⟨rfl, trivial⟩

/-- The arguments `b` and `7`. -/
def orderedArgs : List Tree :=
  [.variable (some 4) "b", .literal (some 4) (.int 7)]

/-- The first argument of the call mentions the second parameter, which does no harm. -/
theorem call_lexical_iff_ordered :
    ∃ t c σ', (Tree.call (some 4) "f" orderedArgs []).expand.run [("f", tensAndUnits)] = .ok (t, [("f", tensAndUnits)]) ∧
      outcome (lexicalCall afterTwo.scopes "f" tensAndUnits orderedArgs) afterTwo = (.ok c, σ') ∧
      outcome t.resolve afterTwo = (.ok c, σ') := by
  have found : List.lookup "f" [("f", tensAndUnits)] = some tensAndUnits := rfl
  have expanded : (Tree.expandItems orderedArgs).run [("f", tensAndUnits)] = .ok (orderedArgs, [("f", tensAndUnits)]) := rfl
  have unnamed : (Tree.expandNamed []).run [("f", tensAndUnits)] = .ok ([], [("f", tensAndUnits)]) := rfl
  have expressions : ∀ e ∈ orderedArgs, ∀ x, e.defines x = false := by simp [orderedArgs, Tree.defines]
  obtain ⟨c, σ', meant⟩ :
      ∃ c σ', outcome (lexicalCall afterTwo.scopes "f" tensAndUnits orderedArgs) afterTwo = (.ok c, σ') := ⟨_, _, rfl⟩
  obtain ⟨t, compiled, same⟩ :=
    call_lexical_iff afterTwo_fits found (by decide) (some 4) expanded unnamed rfl expressions meant
  refine ⟨t, c, σ', compiled, meant, same.mpr ⟨?_, fun x _ _ => rfl⟩⟩
  simp [Unseen, tensAndUnits, orderedArgs, Tree.mentions]

/-- The call `f(b, a)`. -/
def swapText : String :=
  "a = 1\nb = 2\nf(a, b) => a * 10 + b\nx = f(b, a)\n"

/-- What `x` holds after one bar. -/
def givesX (p : Program) (value : Int) : Bool :=
  let m := leaves Machine.step (leaves (Machine.load p) (Machine.new .plain (.flat [1.0])))
  (m.holds (some 4)).any (·.same (.int value))

/-- With `b` and `a` for `a` and `b`, the second argument means the first parameter: the value is not 21, as it is
    meant to be, but 22. -/
theorem call_captures_parameter :
    (compile swapText).toOption.any (givesX · 22) ∧
      ∃ c σ', outcome (lexicalCall afterTwo.scopes "f" tensAndUnits [.variable (some 4) "b", .variable (some 4) "a"])
          afterTwo = (.ok c, σ') ∧ σ'.next = 4 ∧
        givesX ⟨.block none [defined 1 0 "a" 1, defined 2 1 "b" 2, .define (some 4) 4 "x" c], []⟩ 21 := by
  refine ⟨by decide +kernel, _, _, rfl, rfl, ?_⟩
  decide +kernel

end PineEngine.Script
