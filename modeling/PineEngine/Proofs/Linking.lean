import PineEngine.Proofs.Numbering

/-! # The graph of compiled code

Code leads from a node to its children. A reference leads to the definition that it means, and so does an assignment,
so a definition can be reached on many ways. In a compiled script every call is one of a built-in function, every
reference and every assignment leads to a definition of its name, and no way comes back to where it started
(`compile_linked`).
-/

namespace PineEngine.Script

open Builtin Computation List

variable {c : Code} {p : Program} {text name : String}

namespace Code

variable {nodes : List Code} {d : Code}

theorem fits_reached (fit : c.fits nodes) (way : c.Reaches d) : d.fits nodes := by
  induction way with
  | refl => exact fit
  | tail _ child ih => exact fits_child ih child

theorem number_lt_of_descends {i j : Nat} (fit : c.fits nodes) (way : c.Descends d) (number : c.id? = some i)
    (number' : d.id? = some j) : j < i := by
  obtain ⟨first, child, rest⟩ := Relation.TransGen.head'_iff.mp way
  have below := fits_reached ((fits_numbered fit number).2 first child) rest
  obtain ⟨low, _⟩ := List.getElem?_eq_some_iff.mp (fits_numbered below number').1
  exact Nat.lt_of_lt_of_le low (length_take_le i nodes)

theorem eq_of_number {p : Code} (fit : p.fits nodes) (way : p.Reaches c) (way' : p.Reaches d)
    (numbered : c.id?.isSome) (same : d.id? = c.id?) : d = c := by
  obtain ⟨i, here⟩ := Option.isSome_iff_exists.mp numbered
  have known := (fits_numbered (fits_reached fit way) here).1
  have known' := (fits_numbered (fits_reached fit way') (same.trans here)).1
  exact Option.some.inj (known'.symm.trans known)

def Defines (name : String) (c : Code) : Prop :=
  ∃ line id e, c = .define line id name e

/-- A node whose name is settled, where the definitions in `assigned` are assigned to. -/
def Settled (assigned : List Nat) : Code → Prop
  | .variable line name target => ∃ d, (Code.variable line name target).children = [d] ∧ d.Defines name
  | .assign line name target e =>
    ∃ d id, (Code.assign line name target e).children.head? = some d ∧ d.Defines name ∧ d.id? = some id ∧ id ∈ assigned
  | .call _ name fn _ _ => Function.ofName? name = some fn
  | _ => True

def Linked (assigned : List Nat) (c : Code) : Prop :=
  ∀ d, c.Reaches d → d.Settled assigned

variable {assigned assigned' : List Nat}

structure Made (assigned : List Nat) (c : Code) : Prop where
  settled : c.Settled assigned
  live : c.Live

def AllMade (assigned : List Nat) (c : Code) : Prop :=
  ∀ d, c.Reaches d → d.Made assigned

theorem Settled.mono (more : assigned ⊆ assigned') (settled : c.Settled assigned) : c.Settled assigned' := by
  cases c with
  | assign line name target e =>
    obtain ⟨d, id, first, defines, numbered, mem⟩ := settled
    exact ⟨d, id, first, defines, numbered, more mem⟩
  | _ => exact settled

theorem AllMade.child (made : c.AllMade assigned) (child : c.Child d) : d.AllMade assigned :=
  fun e way => made e (.head child way)

theorem made_of_children (settled : c.Settled assigned) (live : c.Live)
    (children : ∀ d, c.Child d → d.AllMade assigned) : c.AllMade assigned := by
  intro d way
  rcases Relation.ReflTransGen.cases_head way with rfl | ⟨first, child, rest⟩
  · exact ⟨settled, live⟩
  · exact children first child d rest

theorem AllMade.closed (made : c.AllMade assigned) : c.closed := by
  induction c using children_induction with
  | step c ih => exact (closed_iff c).mpr ⟨(made c .refl).live, fun d child => ih d child (made.child child)⟩

end Code

/-- How far a resolution has come: the nodes that are numbered, in order, and the definitions that are assigned to. -/
structure Progress where
  nodes : List Code
  assigned : List Nat

namespace Progress

structure Before (t t' : Progress) : Prop where
  longer : t.nodes <+: t'.nodes
  more : t.assigned ⊆ t'.assigned

variable {t t' t'' : Progress}

theorem Before.refl (t : Progress) : t.Before t :=
  ⟨prefix_rfl, Subset.refl _⟩

theorem Before.trans (first : t.Before t') (second : t'.Before t'') : t.Before t'' :=
  ⟨first.longer.trans second.longer, Subset.trans first.more second.more⟩

structure Last (t : Progress) (id : Nat) (c : Code) (t' : Progress) : Prop where
  known : t'.nodes[id]? = some c
  earlier : t'.nodes.take id = t.nodes
  assigned : t'.assigned = t.assigned

end Progress

structure Code.Resolved (t : Progress) (c : Code) : Prop where
  fits : c.fits t.nodes
  made : c.AllMade t.assigned

namespace Code.Resolved

variable {t t' : Progress} {c : Code}

theorem mono (before : t.Before t') (resolved : c.Resolved t) : c.Resolved t' where
  fits := fits_mono before.longer c resolved.fits
  made d way := ⟨(resolved.made d way).settled.mono before.more, (resolved.made d way).live⟩

theorem plain (unnumbered : c.id? = none) (settled : c.Settled t.assigned) (live : c.Live)
    (children : ∀ d, c.Child d → d.Resolved t) : c.Resolved t where
  fits := (fits_plain_iff unnumbered).mpr fun d child => (children d child).fits
  made := made_of_children settled live fun d child => (children d child).made

theorem numbered {id : Nat} (last : t.Last id c t') (number : c.id? = some id) (settled : c.Settled t'.assigned)
    (live : c.Live) (children : ∀ d, c.Child d → d.Resolved t) : c.Resolved t' where
  fits := (fits_numbered_iff number).mpr ⟨last.known, fun d child => last.earlier ▸ (children d child).fits⟩
  made := made_of_children settled live fun d child => last.assigned ▸ (children d child).made

end Code.Resolved

/-- The state of a resolution that has come so far. Visible definitions are of the names that they are found under. -/
structure Resolution.At (t : Progress) (s : Resolution) : Prop where
  next : s.next = t.nodes.length
  assigned : s.mutable = t.assigned
  scopes : ∀ scope ∈ s.scopes, ∀ entry ∈ scope, entry.2.Defines entry.1 ∧ entry.2.Resolved t

def Resolves {α : Type} (t : Progress) (x : ResolveM α) (Q : Progress → α → Prop) : Prop :=
  ∀ s, s.At t → ∀ a s', outcome x s = (.ok a, s') → ∃ t', t.Before t' ∧ s'.At t' ∧ Q t' a

namespace Resolves

variable {α β : Type} {t : Progress} {Q : Progress → α → Prop} {T : Progress → β → Prop} {x : ResolveM α}

theorem pure {a : α} (holds : Q t a) : Resolves t (pure a) Q := by
  intro s here a' s' h
  cases h
  exact ⟨t, .refl t, here, holds⟩

theorem throw (e : Fault) : Resolves t (throw e) Q := by
  intro s here a s' h
  cases h

theorem bind {f : α → ResolveM β} (first : Resolves t x Q)
    (rest : ∀ a t', t.Before t' → Q t' a → Resolves t' (f a) T) : Resolves t (x >>= f) T := by
  intro s here b s'' h
  obtain ⟨a, s', found, h⟩ := outcome_bind_eq_ok h
  obtain ⟨t', before, here', holds⟩ := first s here a s' found
  obtain ⟨t'', before', here'', holds'⟩ := rest a t' before holds s' here' b s'' h
  exact ⟨t'', before.trans before', here'', holds'⟩

theorem inScope (resolves : Resolves t x Q) : Resolves t (ResolveM.inScope x) Q := by
  intro s here a s' h
  rw [ResolveM.inScope, bind_ok (outcome_modify _ s), outcome_tryFinally] at h
  have inner : Resolution.At t { s with scopes := [] :: s.scopes } := by
    refine ⟨here.next, here.assigned, fun scope mem entry member => ?_⟩
    rcases mem_cons.mp mem with rfl | old
    · cases member
    · exact here.scopes scope old entry member
  obtain ⟨found, rfl⟩ := Prod.mk.inj h
  obtain ⟨t', before, after, holds⟩ := resolves _ inner a _ (Prod.ext found rfl)
  exact ⟨t', before, ⟨after.next, after.assigned, fun scope mem => after.scopes scope (mem_of_mem_drop mem)⟩,
    holds⟩

theorem fresh (node : Nat → Code) : Resolves t ResolveM.fresh fun t' id => t.Last id (node id) t' := by
  intro s here id s' h
  cases h
  have before : t.Before ⟨t.nodes ++ [node t.nodes.length], t.assigned⟩ :=
    ⟨prefix_append .., Subset.refl _⟩
  refine ⟨_, before, ⟨?_, here.assigned, fun scope mem entry member => ?_⟩, ?_⟩
  · rw [here.next, length_append, length_singleton]
  · obtain ⟨defines, resolved⟩ := here.scopes scope mem entry member
    exact ⟨defines, resolved.mono before⟩
  · rw [here.next]
    exact ⟨getElem?_concat_length, take_left, rfl⟩

end Resolves

theorem folded_plain {v : Variable} {value : Value} (found : Variable.ofName? name = some v)
    (folded : v.folded? = some value) : value.isSeries = false := by
  have plain : Variable.all.all (fun entry => entry.2.folded?.all fun v => !v.isSeries) = true := by decide
  obtain ⟨_, _, all, _⟩ := lookup_eq_some_iff.mp found
  have here := all_eq_true.mp plain (name, v) (by rw [all]; simp)
  rw [folded] at here
  simpa using here

variable {t : Progress}

theorem Resolution.At.find {s : Resolution} (here : s.At t) (found : s.scopes.find? name = some c) :
    c.Defines name ∧ c.Resolved t := by
  obtain ⟨scope, mem, looked⟩ := exists_of_findSome?_eq_some found
  obtain ⟨_, _, all, _⟩ := lookup_eq_some_iff.mp looked
  exact here.scopes scope mem (name, c) (by rw [all]; simp)

theorem resolveName_resolves (line : Line) (name : String) :
    Resolves t (resolveName line name) fun t' c => c.Resolved t' := by
  intro s here
  rw [resolveName, get_bind]
  split
  next target found =>
    obtain ⟨defines, targets⟩ := here.find found
    refine Resolves.pure (.plain rfl ⟨target, rfl, defines⟩ trivial fun d child => ?_) s here
    cases mem_singleton.mp child
    exact targets
  next =>
    split
    next => exact Resolves.throw _ s here
    next v named =>
      split
      next value folded => exact Resolves.pure (.plain rfl trivial (folded_plain named folded) nofun) s here
      next live =>
        exact Resolves.bind (.fresh fun id => .builtin line id name v) (fun _ _ _ last =>
          .pure (.numbered last rfl trivial (Option.isNone_iff_eq_none.mpr live) nofun)) s here

theorem resolveTarget_resolves (name : String) : Resolves t (resolveTarget name) fun t' c =>
    c.Defines name ∧ c.Resolved t' ∧ ∃ id, c.id? = some id ∧ id ∈ t'.assigned := by
  intro s here c s' h
  rw [resolveTarget, get_bind] at h
  split at h
  next target found =>
    obtain ⟨⟨line, id, e, rfl⟩, targets⟩ := here.find found
    cases h
    have more : t.assigned ⊆ if s.mutable.contains id then s.mutable else id :: s.mutable := by
      rw [← here.assigned]
      split
      · exact Subset.refl _
      · exact subset_cons_self id _
    have before : t.Before ⟨t.nodes, if s.mutable.contains id then s.mutable else id :: s.mutable⟩ :=
      ⟨prefix_rfl, more⟩
    refine ⟨_, before, ⟨here.next, rfl, fun scope mem entry member => ?_⟩, ⟨line, id, e, rfl⟩, targets.mono before, id,
      rfl, ?_⟩
    · obtain ⟨defines, resolved⟩ := here.scopes scope mem entry member
      exact ⟨defines, resolved.mono before⟩
    · split
      next already => exact contains_iff_mem.mp already
      next => exact (.head _)
  next => split at h <;> cases h

theorem resolveDefine_resolves (line : Line) (name : String) {e : Code} (resolved : e.Resolved t) :
    Resolves t (resolveDefine line name e) fun t' id => (Code.define line id name e).Resolved t' := by
  refine .bind (.fresh fun id => .define line id name e) fun id t' _ last => ?_
  have new : (Code.define line id name e).Resolved t' := .numbered last rfl trivial trivial fun d child => by
    cases mem_singleton.mp child
    exact resolved
  intro s here a s' h
  cases h
  refine ⟨t', .refl t', ⟨here.next, here.assigned, fun scope mem entry member => ?_⟩, new⟩
  rcases Scopes.mem_define mem member with rfl | ⟨old, before⟩
  · exact ⟨⟨line, id, e, rfl⟩, new⟩
  · exact here.scopes old before.1 entry before.2

namespace Tree

open Code

mutual

theorem resolve_resolves (t : Progress) (tree : Tree) : Resolves t tree.resolve fun t' c => c.Resolved t' := by
  cases tree with
  | block line items | list line items | anyOf line items | allOf line items =>
    exact .bind (resolveItems_resolves t items) fun cs _ _ each => .pure (.plain rfl trivial trivial each)
  | literal line v => exact .pure (.plain rfl trivial (by cases v <;> rfl) nofun)
  | binary line op a b =>
    refine .bind (resolve_resolves t a) fun a _ _ left => .bind (resolve_resolves _ b) fun b _ before right => ?_
    exact .pure (.plain rfl trivial trivial (by simp [Child, children, left.mono before, right]))
  | unary line op a =>
    refine .bind (resolve_resolves t a) fun a _ _ operand => ?_
    exact .pure (.plain rfl trivial trivial (by simp [Child, children, operand]))
  | «variable» line name => exact resolveName_resolves line name
  | call line name args named =>
    refine .bind (resolveItems_resolves t args) fun cs _ _ placed => ?_
    refine .bind (resolveNamed_resolves _ named) fun ns _ before byName => ?_
    split
    next fn builtin =>
      refine .bind (.fresh fun id => .call id name fn cs ns) fun id _ _ last =>
        .pure (.numbered last rfl builtin trivial fun d child => ?_)
      rcases mem_append.mp child with mem | mem
      · exact (placed d mem).mono before
      · exact byName d mem
    next => exact .throw _
  | choice line c y no inline =>
    cases no with
    | none =>
      refine .bind (resolve_resolves t c) fun c _ _ cond => ?_
      refine .bind (.inScope (resolve_resolves _ y)) fun y _ before yes => ?_
      refine .bind (.fresh fun id => .choice line id c y none inline) fun id _ _ last => ?_
      exact .pure (.numbered last rfl trivial trivial (by simp [Child, children, cond.mono before, yes]))
    | some e =>
      refine .bind (resolve_resolves t c) fun c _ _ cond => ?_
      refine .bind (.inScope (resolve_resolves _ y)) fun y _ before yes => ?_
      refine .bind (.inScope (resolve_resolves _ e)) fun e _ before' no => ?_
      refine .bind (.fresh fun id => .choice line id c y (some e) inline) fun id _ _ last => ?_
      have cond := (cond.mono before).mono before'
      exact .pure (.numbered last rfl trivial trivial (by simp [Child, children, cond, yes.mono before', no]))
  | loop line counterLine counter first last body =>
    refine .inScope (.bind (resolve_resolves t first) fun first _ _ start => ?_)
    refine .bind (resolveDefine_resolves counterLine counter start) fun id _ _ counted => ?_
    refine .bind (resolve_resolves _ last) fun last _ before stop => ?_
    refine .bind (resolve_resolves _ body) fun body _ before' inner => ?_
    have counted := (counted.mono before).mono before'
    exact .pure (.plain rfl trivial trivial (by simp [Child, children, counted, stop.mono before', inner]))
  | function line name params body => exact .throw _
  | define line name e =>
    refine .bind (resolve_resolves t e) fun e _ _ expr => ?_
    exact .bind (resolveDefine_resolves line name expr) fun id _ _ defined => .pure defined
  | assign line name e =>
    refine .bind (resolve_resolves t e) fun e _ _ expr => ?_
    refine .bind (resolveTarget_resolves name) fun target _ before found => ?_
    obtain ⟨defines, resolved, id, numbered, mem⟩ := found
    exact .pure (.plain rfl ⟨target, id, rfl, defines, numbered, mem⟩ trivial
      (by simp [Child, children, resolved, expr.mono before]))
  | inlined name params args body =>
    refine .inScope (.bind (resolveItems_resolves t args) fun args _ _ placed => ?_)
    refine .bind (resolve_resolves _ body) fun body _ before inner => .pure (.plain rfl trivial trivial fun d child => ?_)
    rcases mem_append.mp child with mem | last
    · exact (placed d mem).mono before
    · cases mem_singleton.mp last
      exact inner
  | empty | word => exact .throw _

theorem resolveItems_resolves (t : Progress) (trees : List Tree) :
    Resolves t (resolveItems trees) fun t' cs => ∀ c ∈ cs, c.Resolved t' := by
  cases trees with
  | nil => exact .pure nofun
  | cons tree trees =>
    refine .bind (resolve_resolves t tree) fun c _ _ first => ?_
    refine .bind (resolveItems_resolves _ trees) fun cs _ before rest => ?_
    exact .pure (forall_mem_cons.mpr ⟨first.mono before, rest⟩)

theorem resolveNamed_resolves (t : Progress) (trees : List (String × Tree)) :
    Resolves t (resolveNamed trees) fun t' cs => ∀ c ∈ cs.map (·.2), c.Resolved t' := by
  match trees with
  | [] => exact .pure nofun
  | (name, tree) :: trees =>
    refine .bind (resolve_resolves t tree) fun c _ _ first => ?_
    refine .bind (resolveNamed_resolves _ trees) fun cs _ before rest => ?_
    exact .pure (forall_mem_cons.mpr ⟨first.mono before, rest⟩)

end

end Tree

namespace Outline

mutual

def labels : Outline → List String
  | .node label _ _ _ args children => label :: (allLabels args ++ allLabels children)
  | .again label _ args => label :: allLabels args
  | .leaf _ | .builtin _ => []

def allLabels : List Outline → List String
  | [] => []
  | o :: rest => o.labels ++ allLabels rest

end

/-- An outline of nodes that stand in compiled code: no definition of a function, and no call before it is known what
    it calls. -/
def Compiled (o : Outline) : Prop :=
  ∀ label ∈ o.labels, label ≠ "FunDefNode" ∧ label ≠ "FunCallNode"

theorem mem_allLabels {label : String} {os : List Outline} : label ∈ allLabels os ↔ ∃ o ∈ os, label ∈ o.labels := by
  induction os with
  | nil => simp [allLabels]
  | cons o os ih => simp [allLabels, ih]

theorem compiled_leaf (v : Value) : (leaf v).Compiled :=
  nofun

theorem compiled_node {label : String} (known : label ≠ "FunDefNode" ∧ label ≠ "FunCallNode") {line : Line}
    {inline : Option Bool} {key : Option Nat} {args children : List Outline} (compiledArgs : ∀ o ∈ args, o.Compiled)
    (compiledChildren : ∀ o ∈ children, o.Compiled) : (node label line inline key args children).Compiled := by
  intro l mem
  simp only [labels, mem_cons, mem_append, mem_allLabels] at mem
  rcases mem with rfl | ⟨o, member, mem⟩ | ⟨o, member, mem⟩
  · exact known
  · exact compiledArgs o member l mem
  · exact compiledChildren o member l mem

end Outline

namespace Code

open Outline

theorem roleLabel_known (role : Role) : roleLabel role ≠ "FunDefNode" ∧ roleLabel role ≠ "FunCallNode" := by
  cases role <;> decide

theorem outlineDefine_compiled (mutable seen : List Nat) (line : Line) (id : Nat) (name : String)
    {expr : List Nat → Outline × List Nat} (compiled : ∀ seen, (expr seen).1.Compiled) :
    (outlineDefine mutable seen line id name expr).1.Compiled := by
  have args : ∀ o ∈ definitionArgs mutable id name, o.Compiled := by
    simp [definitionArgs, Outline.word, compiled_leaf]
  unfold outlineDefine
  split
  · intro label mem
    simp only [labels, mem_cons, mem_allLabels] at mem
    rcases mem with rfl | ⟨o, member, mem⟩
    · decide
    · exact args o member label mem
  · exact compiled_node (by decide) args (by simpa using compiled _)

mutual

theorem outline_compiled (mutable seen : List Nat) (c : Code) : (c.outline mutable seen).1.Compiled := by
  cases c with
  | block line items | list line items | anyOf line items | allOf line items =>
    exact compiled_node (by decide) nofun (outlineAll_compiled mutable seen items)
  | literal line v => exact compiled_node (by decide) (by simp [compiled_leaf]) nofun
  | binary line op a b =>
    have left := outline_compiled mutable seen a
    have right := outline_compiled mutable (a.outline mutable seen).2 b
    exact compiled_node (by decide) (by simp [Outline.word, compiled_leaf]) (by simp [left, right])
  | unary line op a =>
    have operand := outline_compiled mutable seen a
    exact compiled_node (by decide) (by simp [Outline.word, compiled_leaf]) (by simp [operand])
  | builtin line id name v =>
    have function : (Outline.builtin (outlineName name)).Compiled := nofun
    exact compiled_node (by decide) (by simp [Outline.word, compiled_leaf, function]) nofun
  | «variable» line name target =>
    have shown := outline_compiled mutable seen target
    exact compiled_node (by decide) (by simp [Outline.word, compiled_leaf]) (by simp [shown])
  | call id name fn args named =>
    have placed : (node "Node" none none none [] (outlineAll mutable seen args).1).Compiled :=
      compiled_node (by decide) nofun (outlineAll_compiled mutable seen args)
    have byName := outlineNamed_compiled mutable (outlineAll mutable seen args).2 named
    refine compiled_node (roleLabel_known fn.role) (by simp [Outline.word, compiled_leaf]) ?_
    refine forall_mem_cons.mpr ⟨placed, forall_mem_singleton.mpr ?_⟩
    refine compiled_node (by decide) (fun o mem => ?_) byName
    obtain ⟨entry, _, rfl⟩ := mem_map.mp mem
    exact compiled_leaf _
  | choice line id cond yes no inline =>
    have first := outline_compiled mutable seen cond
    have second := outline_compiled mutable (cond.outline mutable seen).2 yes
    cases no with
    | none => exact compiled_node (by decide) nofun (by simp [first, second])
    | some e =>
      have third := outline_compiled mutable (yes.outline mutable (cond.outline mutable seen).2).2 e
      exact compiled_node (by decide) nofun (by simp [first, second, third])
  | loop line counterLine id counter first last body =>
    have counted := outlineDefine_compiled mutable seen counterLine id counter
      fun seen => outline_compiled mutable seen first
    have stop := outline_compiled mutable
      (outlineDefine mutable seen counterLine id counter (first.outline mutable)).2 last
    have inner := outline_compiled mutable (last.outline mutable
      (outlineDefine mutable seen counterLine id counter (first.outline mutable)).2).2 body
    exact compiled_node (by decide) nofun (forall_mem_cons.mpr ⟨counted,
      forall_mem_cons.mpr ⟨stop, forall_mem_singleton.mpr inner⟩⟩)
  | define line id name e =>
    exact outlineDefine_compiled mutable seen line id name fun seen => outline_compiled mutable seen e
  | assign line name target e =>
    have shown := outline_compiled mutable seen target
    have expr := outline_compiled mutable (target.outline mutable seen).2 e
    exact compiled_node (by decide) (by simp [Outline.word, compiled_leaf]) (by simp [shown, expr])
  | inlined name params args body =>
    have placed : (node "Node" none none none [] (outlineAll mutable seen args).1).Compiled :=
      compiled_node (by decide) nofun (outlineAll_compiled mutable seen args)
    have inner := outline_compiled mutable (outlineAll mutable seen args).2 body
    exact compiled_node (by decide) (by simp [Outline.word, compiled_leaf]) (by simp [placed, inner])

theorem outlineAll_compiled (mutable seen : List Nat) (cs : List Code) :
    ∀ o ∈ (outlineAll mutable seen cs).1, o.Compiled := by
  cases cs with
  | nil => exact nofun
  | cons c cs =>
    exact forall_mem_cons.mpr ⟨outline_compiled mutable seen c, outlineAll_compiled mutable _ cs⟩

theorem outlineNamed_compiled (mutable seen : List Nat) (cs : List (String × Code)) :
    ∀ o ∈ (outlineNamed mutable seen cs).1.map (·.2), o.Compiled := by
  match cs with
  | [] => exact nofun
  | (name, c) :: cs =>
    exact forall_mem_cons.mpr ⟨outline_compiled mutable seen c, outlineNamed_compiled mutable _ cs⟩

end

end Code

section

variable (compiled : compile text = .ok p)

include compiled

theorem compile_resolved : ∃ nodes, p.code.Resolved ⟨nodes, p.mutable⟩ := by
  obtain ⟨tree, s, resolved, same⟩ := compile_eq_ok compiled
  have empty : Resolution.At ⟨[], []⟩ {} := ⟨rfl, rfl, fun scope mem entry here => by
    cases mem_singleton.mp mem
    cases here⟩
  obtain ⟨⟨nodes, assigned⟩, _, here, made⟩ := tree.resolve_resolves _ {} empty p.code s resolved
  obtain rfl : p.mutable = assigned := same.trans here.assigned
  exact ⟨nodes, made⟩

theorem compile_made : p.code.AllMade p.mutable := by
  obtain ⟨_, resolved⟩ := compile_resolved compiled
  exact resolved.made

theorem compile_fits : ∃ nodes, p.code.fits nodes :=
  (compile_resolved compiled).imp fun _ resolved => resolved.fits

theorem compile_closed : p.code.closed :=
  (compile_made compiled).closed

end

/-- The graph of a compiled script. Its outline shows neither definitions of functions nor calls of anything but a
    built-in function. Every reference and every assignment leads to a definition of its name, the one of an
    assignment being marked. A number belongs to one node, and numbers fall on every way, so none leads back. -/
theorem compile_linked {text : String} {p : Program} (compiled : compile text = .ok p) :
    p.outline.Compiled ∧ p.code.Linked p.mutable ∧
      (∀ c d, p.code.Reaches c → p.code.Reaches d → c.id?.isSome → d.id? = c.id? → d = c) ∧
      ∀ c d, p.code.Reaches c → c.Descends d →
        d ≠ c ∧ ∀ i j, c.id? = some i → d.id? = some j → j < i := by
  obtain ⟨nodes, fit⟩ := compile_fits compiled
  refine ⟨Code.outline_compiled _ _ p.code, fun d way => (compile_made compiled d way).settled,
    fun c d way way' => Code.eq_of_number fit way way', fun c d way below => ?_⟩
  exact ⟨Code.ne_of_descends below, fun i j number number' =>
    Code.number_lt_of_descends (Code.fits_reached fit way) below number number'⟩

theorem compile_any {test : Program → Bool} (accepted : (compile text).toOption.any test) :
    ∃ p, compile text = .ok p ∧ test p := by
  cases found : compile text with
  | error e => simp [found, Except.toOption] at accepted
  | ok p => exact ⟨p, rfl, by simpa [found, Except.toOption] using accepted⟩

/-- A script with a function of its own, a variable that a loop assigns to, and a choice. -/
def tallyText : String :=
  "f(x, y) => x > y ? x : y\nsum = 0\nfor i = 1 to 3\n    sum := sum + f(i, 2)\nplot(sum, title=\"sum\")\n"

theorem compile_linked_tallyText : ∃ p, compile tallyText = .ok p ∧ p.mutable.length = 1 ∧
    "UserFuncCallNode" ∈ p.outline.labels ∧ "VarAssignNode" ∈ p.outline.labels ∧
    p.outline.Compiled ∧ p.code.Linked p.mutable ∧ ∀ c, p.code.Reaches c → ¬ c.Descends c := by
  have accepted : (compile tallyText).toOption.any fun p => p.mutable.length == 1 &&
      p.outline.labels.contains "UserFuncCallNode" && p.outline.labels.contains "VarAssignNode" := by
    decide +kernel
  obtain ⟨p, compiled, shown⟩ := compile_any accepted
  simp only [Bool.and_eq_true, beq_iff_eq, List.contains_iff_mem] at shown
  obtain ⟨outline, linked, _, acyclic⟩ := compile_linked compiled
  exact ⟨p, compiled, shown.1.1, shown.1.2, shown.2, outline, linked, fun c way back => (acyclic c c way back).1 rfl⟩

end PineEngine.Script
