import PineEngine.Proofs.Scoping

/-! # The meaning of names by environments

An environment says which definition a name means. `Tree.link` reads a tree in an environment that is passed along: a
definition changes it for what follows, not for its own expression; what has a scope of its own, a branch, a loop or
a call of a function of the script, hands on the environment that it was given. A name that the environment does not
know means what is built in under it, if anything is.

Resolution keeps a stack of scopes instead, which it pushes, changes and pops. It comes to the same code as `Tree.link`
or to the same fault, and in either case the stack has the scopes that it had, the innermost with the definitions that
the tree itself has made (`Tree.resolve_lexical`).
-/

namespace PineEngine.Script

open Builtin Computation List

abbrev Environment := String → Option Code

/-- The environment after a definition, which hides what the name meant before. -/
def Environment.define (env : Environment) (name : String) (c : Code) : Environment :=
  fun x => if x = name then some c else env x

/-- What is read: a value, the environment of what follows, and the next number for a node. -/
structure Reading (α : Type) where
  value : α
  env : Environment
  next : Nat

def linkName (env : Environment) (next : Nat) (line : Line) (name : String) : Except Fault (Reading Code) :=
  match env name, Variable.ofName? name with
  | some target, _ => .ok ⟨.variable line name target, env, next⟩
  | none, none => .error (.script (.variableNotFound name))
  | none, some v =>
    match v.folded? with
    | some value => .ok ⟨.literal line value, env, next⟩
    | none => .ok ⟨.builtin line next name v, env, next + 1⟩

def linkTarget (env : Environment) (name : String) : Except Fault Code :=
  match env name, Variable.ofName? name with
  | some target, _ => .ok target
  | none, none => .error (.script (.variableNotFound name))
  | none, some _ => .error (.script (.assignToBuiltin name))

namespace Tree

mutual

/-- The tree with the meaning of every name in an environment. -/
def link (env : Environment) (next : Nat) : Tree → Except Fault (Reading Code)
  | .block line items => do
    let ⟨items, env, next⟩ ← linkItems env next items
    .ok ⟨.block line items, env, next⟩
  | .literal line v => .ok ⟨.literal line v.value, env, next⟩
  | .list line items => do
    let ⟨items, env, next⟩ ← linkItems env next items
    .ok ⟨.list line items, env, next⟩
  | .anyOf line items => do
    let ⟨items, env, next⟩ ← linkItems env next items
    .ok ⟨.anyOf line items, env, next⟩
  | .allOf line items => do
    let ⟨items, env, next⟩ ← linkItems env next items
    .ok ⟨.allOf line items, env, next⟩
  | .binary line op a b => do
    let ⟨a, env, next⟩ ← a.link env next
    let ⟨b, env, next⟩ ← b.link env next
    .ok ⟨.binary line op a b, env, next⟩
  | .unary line op a => do
    let ⟨a, env, next⟩ ← a.link env next
    .ok ⟨.unary line op a, env, next⟩
  | .variable line name => linkName env next line name
  | .call _ name args named => do
    let ⟨args, env, next⟩ ← linkItems env next args
    let ⟨named, env, next⟩ ← linkNamed env next named
    match Function.ofName? name with
    | some fn => .ok ⟨.call next name fn args named, env, next + 1⟩
    | none => .error (.script (.functionNotFound name))
  | .choice line c y none inline => do
    let ⟨c, env, next⟩ ← c.link env next
    let ⟨y, _, next⟩ ← y.link env next
    .ok ⟨.choice line next c y none inline, env, next + 1⟩
  | .choice line c y (some e) inline => do
    let ⟨c, env, next⟩ ← c.link env next
    let ⟨y, _, next⟩ ← y.link env next
    let ⟨e, _, next⟩ ← e.link env next
    .ok ⟨.choice line next c y (some e) inline, env, next + 1⟩
  | .loop line counterLine counter first l b => do
    let ⟨first, inner, id⟩ ← first.link env next
    let ⟨l, inner, next⟩ ← l.link (inner.define counter (.define counterLine id counter first)) (id + 1)
    let ⟨b, _, next⟩ ← b.link inner next
    .ok ⟨.loop line counterLine id counter first l b, env, next⟩
  | .function _ _ _ _ => .error .unimplemented
  | .define line name e => do
    let ⟨e, env, next⟩ ← e.link env next
    .ok ⟨.define line next name e, env.define name (.define line next name e), next + 1⟩
  | .assign line name e => do
    let ⟨e, env, next⟩ ← e.link env next
    let target ← linkTarget env name
    .ok ⟨.assign line name target e, env, next⟩
  | .inlined name params args body => do
    let ⟨args, inner, next⟩ ← linkItems env next args
    let ⟨body, _, next⟩ ← body.link inner next
    .ok ⟨.inlined name params args body, env, next⟩
  | .empty => .error .member
  | .word _ => .error .member

/-- The trees in a row, each in the environment that the ones before it leave. -/
def linkItems (env : Environment) (next : Nat) : List Tree → Except Fault (Reading (List Code))
  | [] => .ok ⟨[], env, next⟩
  | t :: rest => do
    let ⟨t, env, next⟩ ← t.link env next
    let ⟨rest, env, next⟩ ← linkItems env next rest
    .ok ⟨t :: rest, env, next⟩

def linkNamed (env : Environment) (next : Nat) : List (String × Tree) → Except Fault (Reading (List (String × Code)))
  | [] => .ok ⟨[], env, next⟩
  | (k, t) :: rest => do
    let ⟨t, env, next⟩ ← t.link env next
    let ⟨rest, env, next⟩ ← linkNamed env next rest
    .ok ⟨(k, t) :: rest, env, next⟩

end

end Tree

abbrev Reader (α : Type) := Environment → Nat → Except Fault (Reading α)

/-- What a resolution under the scopes `top :: rest` comes to is what is read. The scopes are there again, the innermost
    with definitions of some of the names in `names`, and they realize the environment after it. -/
inductive Comes {α : Type} (names : String → Prop) (top : List (String × Code)) (rest : Scopes) :
    Except Fault α × Resolution → Except Fault (Reading α) → Prop where
  | ok (new : List (String × Code)) (among : ∀ entry ∈ new, names entry.1) (a : α) (next : Nat) (assigned : List Nat) :
    Comes names top rest (.ok a, ⟨(new ++ top) :: rest, next, assigned⟩)
      (.ok ⟨a, Scopes.find? ((new ++ top) :: rest), next⟩)
  | error (new : List (String × Code)) (among : ∀ entry ∈ new, names entry.1) (e : Fault) (next : Nat)
      (assigned : List Nat) :
    Comes names top rest (.error e, ⟨(new ++ top) :: rest, next, assigned⟩) (.error e)

/-- A resolution that comes to what is read in the environment that its scopes realize. -/
def Realizes {α : Type} (names : String → Prop) (x : ResolveM α) (read : Reader α) : Prop :=
  ∀ top rest next assigned,
    Comes names top rest (outcome x ⟨top :: rest, next, assigned⟩) (read (Scopes.find? (top :: rest)) next)

theorem Comes.after {α : Type} {names : String → Prop} {top new : List (String × Code)} {rest : Scopes}
    {o : Except Fault α × Resolution} {read : Except Fault (Reading α)} (mem : ∀ entry ∈ new, names entry.1)
    (comes : Comes names (new ++ top) rest o read) : Comes names top rest o read := by
  have both {more : List (String × Code)} (later : ∀ entry ∈ more, names entry.1) :
      ∀ entry ∈ more ++ new, names entry.1 :=
    forall_mem_append.mpr ⟨later, mem⟩
  cases comes with
  | ok more later a next assigned =>
    rw [← append_assoc]
    exact .ok _ (both later) a next assigned
  | error more later e next assigned =>
    rw [← append_assoc]
    exact .error _ (both later) e next assigned

namespace Realizes

variable {α β : Type} {names : String → Prop} {x : ResolveM α} {read : Reader α}

theorem of_eq {read' : Reader α} (realizes : Realizes names x read)
    (same : ∀ env next, read' env next = read env next) : Realizes names x read' := by
  intro top rest next assigned
  rw [same]
  exact realizes top rest next assigned

theorem pure (a : α) : Realizes names (pure a) fun env next => .ok ⟨a, env, next⟩ :=
  fun _ _ next assigned => .ok [] (forall_mem_nil _) a next assigned

theorem throw (e : Fault) : Realizes names (throw e : ResolveM α) fun _ _ => .error e :=
  fun _ _ next assigned => .error [] (forall_mem_nil _) e next assigned

theorem fresh : Realizes names ResolveM.fresh fun env next => .ok ⟨next, env, next + 1⟩ :=
  fun _ _ next assigned => .ok [] (forall_mem_nil _) next (next + 1) assigned

theorem bind {f : α → ResolveM β} {readNext : α → Reader β}
    (first : Realizes names x read) (rest : ∀ a, Realizes names (f a) (readNext a)) :
    Realizes names (x >>= f) fun env next => read env next >>= fun r => readNext r.value r.env r.next := by
  intro top outer next assigned
  have here := first top outer next assigned
  rw [outcome_bind]
  dsimp only
  generalize outcome x ⟨top :: outer, next, assigned⟩ = o at here ⊢
  generalize read (Scopes.find? (top :: outer)) next = r at here ⊢
  cases here with
  | ok new mem a next' assigned' => exact (rest a (new ++ top) outer next' assigned').after mem
  | error new mem e next' assigned' => exact .error new mem e next' assigned'

theorem inScope {names' : String → Prop} (inner : Realizes names' x read) :
    Realizes names (ResolveM.inScope x) fun env next => read env next >>= fun r => .ok ⟨r.value, env, r.next⟩ := by
  intro top rest next assigned
  have same : Scopes.find? ([] :: top :: rest) = Scopes.find? (top :: rest) :=
    funext fun x => Scopes.find?_cons [] (top :: rest) x
  have here := inner [] (top :: rest) next assigned
  rw [outcome_inScope]
  rw [same] at here
  dsimp only
  generalize outcome x ⟨[] :: top :: rest, next, assigned⟩ = o at here ⊢
  generalize read (Scopes.find? (top :: rest)) next = r at here ⊢
  cases here with
  | ok new mem a next' assigned' => exact .ok [] (forall_mem_nil _) a next' assigned'
  | error new mem e next' assigned' => exact .error [] (forall_mem_nil _) e next' assigned'

theorem resolveName (line : Line) (name : String) :
    Realizes names (resolveName line name) fun env next => linkName env next line name := by
  intro top rest next assigned
  rw [outcome_resolveName]
  simp only [linkName]
  cases Scopes.find? (top :: rest) name with
  | some target => exact .ok [] (forall_mem_nil _) _ next assigned
  | none =>
    cases Variable.ofName? name with
    | none => exact .error [] (forall_mem_nil _) _ next assigned
    | some v =>
      dsimp only
      cases v.folded? with
      | some value => exact .ok [] (forall_mem_nil _) _ next assigned
      | none => exact .ok [] (forall_mem_nil _) _ (next + 1) assigned

theorem resolveTarget (name : String) :
    Realizes names (resolveTarget name) fun env next =>
      linkTarget env name >>= fun target => .ok ⟨target, env, next⟩ := by
  intro top rest next assigned
  rw [outcome_resolveTarget]
  simp only [linkTarget]
  cases Scopes.find? (top :: rest) name with
  | some target =>
    dsimp only
    cases target.id? with
    | none => exact .ok [] (forall_mem_nil _) target next assigned
    | some id => exact .ok [] (forall_mem_nil _) target next _
  | none => cases Variable.ofName? name <;> exact .error [] (forall_mem_nil _) _ next assigned

theorem resolveDefine (line : Line) {name : String} (named : names name) (e : Code) :
    Realizes names (resolveDefine line name e) fun env next =>
      .ok ⟨next, env.define name (.define line next name e), next + 1⟩ := by
  intro top rest next assigned
  have hidden : Environment.define (Scopes.find? (top :: rest)) name (.define line next name e) =
      Scopes.find? (([(name, .define line next name e)] ++ top) :: rest) := by
    funext x
    rw [Scopes.find?_append, lookup_cons, lookup_nil, Environment.define]
    by_cases same : x = name
    · simp [same]
    · simp [same, beq_false_of_ne same]
  dsimp only
  rw [hidden]
  exact .ok [(name, .define line next name e)] (by simpa using named) next (next + 1) assigned

end Realizes

namespace Tree

mutual

theorem resolve_realizes (t : Tree) {names : String → Prop} (covers : ∀ x, t.defines x → names x) :
    Realizes names t.resolve fun env next => t.link env next := by
  cases t with
  | block line items | list line items | anyOf line items | allOf line items =>
    exact .of_eq (.bind (resolveItems_realizes items covers) fun items => .pure _) fun _ _ => rfl
  | literal line v => exact .pure _
  | binary line op a b =>
    have left := resolve_realizes a fun x defined => covers x (by simp [defines, defined])
    have right := resolve_realizes b fun x defined => covers x (by simp [defines, defined])
    exact .of_eq (.bind left fun a => .bind right fun b => .pure (Code.binary line op a b)) fun _ _ => rfl
  | unary line op a =>
    exact .of_eq (.bind (resolve_realizes a covers) fun a => .pure (Code.unary line op a)) fun _ _ => rfl
  | «variable» line name => exact .resolveName line name
  | call line name args named =>
    have first := resolveItems_realizes args fun x defined => covers x (by simp [defines, defined])
    have second := resolveNamed_realizes named fun x defined => covers x (by simp [defines, defined])
    have last (args : List Code) (named : List (String × Code)) :
        Realizes names (match Function.ofName? name with
          | some fn => do Pure.pure (Code.call (← ResolveM.fresh) name fn args named)
          | none => throw (.script (.functionNotFound name))) fun env next =>
          match Function.ofName? name with
          | some fn => .ok ⟨.call next name fn args named, env, next + 1⟩
          | none => .error (.script (.functionNotFound name)) := by
      cases Function.ofName? name with
      | none => exact .throw _
      | some fn => exact .of_eq (.bind .fresh fun id => .pure (Code.call id name fn args named)) fun _ _ => rfl
    exact .of_eq (.bind first fun args => .bind second fun named => last args named) fun _ _ => rfl
  | choice line c y no inline =>
    have question := resolve_realizes c covers
    have yes : Realizes (fun _ => True) y.resolve _ := resolve_realizes y fun _ _ => trivial
    cases no with
    | none =>
      exact .of_eq (.bind question fun c => .bind (.inScope yes) fun y => .bind .fresh fun id =>
        .pure (Code.choice line id c y none inline)) fun env next => by
          simp only [link, bind_assoc]; rfl
    | some e =>
      have otherwise : Realizes (fun _ => True) e.resolve _ := resolve_realizes e fun _ _ => trivial
      exact .of_eq (.bind question fun c => .bind (.inScope yes) fun y => .bind (.inScope otherwise) fun e =>
        .bind .fresh fun id => .pure (Code.choice line id c y (some e) inline)) fun env next => by
          simp only [link, bind_assoc]; rfl
  | loop line counterLine counter first last body =>
    -- Inside its own scope a loop may define anything.
    have first' : Realizes (fun _ => True) first.resolve _ := resolve_realizes first fun _ _ => trivial
    have last' : Realizes (fun _ => True) last.resolve _ := resolve_realizes last fun _ _ => trivial
    have body' : Realizes (fun _ => True) body.resolve _ := resolve_realizes body fun _ _ => trivial
    exact .of_eq (.inScope (.bind first' fun first => .bind (.resolveDefine counterLine trivial first) fun id =>
      .bind last' fun last => .bind body' fun body =>
        .pure (Code.loop line counterLine id counter first last body))) fun env next => by
          simp only [link, bind_assoc]; rfl
  | function | empty | word => exact .throw _
  | define line name e =>
    have value := resolve_realizes e fun x defined => covers x (by simp [defines, defined])
    exact .of_eq (.bind value fun e => .bind (.resolveDefine line (covers name (by simp [defines])) e) fun id =>
      .pure (Code.define line id name e)) fun _ _ => rfl
  | assign line name e =>
    exact .of_eq (.bind (resolve_realizes e covers) fun e => .bind (.resolveTarget name) fun target =>
      .pure (Code.assign line name target e)) fun env next => by simp only [link, bind_assoc]; rfl
  | inlined name params args body =>
    have args' : Realizes (fun _ => True) (resolveItems args) _ := resolveItems_realizes args fun _ _ => trivial
    have body' : Realizes (fun _ => True) body.resolve _ := resolve_realizes body fun _ _ => trivial
    exact .of_eq (.inScope (.bind args' fun args => .bind body' fun body =>
      .pure (Code.inlined name params args body))) fun env next => by simp only [link, bind_assoc]; rfl

theorem resolveItems_realizes (ts : List Tree) {names : String → Prop} (covers : ∀ x, anyDefines x ts → names x) :
    Realizes names (resolveItems ts) fun env next => linkItems env next ts := by
  cases ts with
  | nil => exact .pure []
  | cons t ts =>
    have first := resolve_realizes t fun x defined => covers x (by simp [anyDefines, defined])
    have rest := resolveItems_realizes ts fun x defined => covers x (by simp [anyDefines, defined])
    exact .of_eq (.bind first fun c => .bind rest fun cs => .pure (c :: cs)) fun _ _ => rfl

theorem resolveNamed_realizes (ts : List (String × Tree)) {names : String → Prop}
    (covers : ∀ x, anyNamedDefines x ts → names x) :
    Realizes names (resolveNamed ts) fun env next => linkNamed env next ts := by
  match ts with
  | [] => exact .pure []
  | (name, t) :: ts =>
    have first := resolve_realizes t fun x defined => covers x (by simp [anyNamedDefines, defined])
    have rest := resolveNamed_realizes ts fun x defined => covers x (by simp [anyNamedDefines, defined])
    exact .of_eq (.bind first fun c => .bind rest fun cs => .pure ((name, c) :: cs)) fun _ _ => rfl

end

/-- Scopes give every name the meaning that the environment gives it. -/
theorem resolve_lexical (t : Tree) (top : List (String × Code)) (rest : Scopes) (next : Nat) (assigned : List Nat) :
    (outcome t.resolve ⟨top :: rest, next, assigned⟩).1 =
        (t.link (Scopes.find? (top :: rest)) next).map (·.value) ∧
      ∃ new, (outcome t.resolve ⟨top :: rest, next, assigned⟩).2.scopes = (new ++ top) :: rest ∧
        ∀ entry ∈ new, t.defines entry.1 := by
  have comes : Comes _ top rest _ (t.link (Scopes.find? (top :: rest)) next) :=
    resolve_realizes t (fun _ defined => defined) top rest next assigned
  generalize outcome t.resolve ⟨top :: rest, next, assigned⟩ = o at comes ⊢
  generalize t.link (Scopes.find? (top :: rest)) next = r at comes ⊢
  cases comes with
  | ok new among a next' assigned' | error new among e next' assigned' => exact ⟨rfl, new, rfl, among⟩

end Tree

end PineEngine.Script
