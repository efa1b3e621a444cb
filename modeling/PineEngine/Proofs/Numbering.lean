import PineEngine.Proofs.Soundness

/-! # Numbers of nodes

The compiler numbers nodes one after the other, each after its parts, and a number is that of one node only. Code
`fits` a list of nodes if each of its numbered nodes is at the place of its number there, and their parts stand before
them. More nodes in the list do not matter (`Code.fits_mono`).
-/

namespace PineEngine

open Script Builtin Computation

variable {c : Code}

namespace Script.Code

mutual

/-- Code whose numbered nodes are in a list, each at the place of its number. The parts of a node have only
    numbers before its own. -/
def fits (nodes : List Code) : Code → Prop
  | .block _ items | .list _ items | .anyOf _ items | .allOf _ items => allFit nodes items
  | .literal _ _ => True
  | .binary _ _ a b => a.fits nodes ∧ b.fits nodes
  | .unary _ _ a => a.fits nodes
  | .builtin line id name v => nodes[id]? = some (.builtin line id name v)
  | .variable _ _ target => target.fits nodes
  | .call id name fn args named =>
    nodes[id]? = some (.call id name fn args named) ∧ allFit (nodes.take id) args ∧ allNamedFit (nodes.take id) named
  | .choice line id c y none inline =>
    nodes[id]? = some (.choice line id c y none inline) ∧ c.fits (nodes.take id) ∧ y.fits (nodes.take id)
  | .choice line id c y (some e) inline =>
    nodes[id]? = some (.choice line id c y (some e) inline) ∧ c.fits (nodes.take id) ∧ y.fits (nodes.take id) ∧
      e.fits (nodes.take id)
  | .loop _ line id name e l b =>
    nodes[id]? = some (.define line id name e) ∧ e.fits (nodes.take id) ∧ l.fits nodes ∧ b.fits nodes
  | .define line id name e => nodes[id]? = some (.define line id name e) ∧ e.fits (nodes.take id)
  | .assign _ _ target e => target.fits nodes ∧ e.fits nodes
  | .inlined _ _ args body => allFit nodes args ∧ body.fits nodes

def allFit (nodes : List Code) : List Code → Prop
  | [] => True
  | c :: rest => c.fits nodes ∧ allFit nodes rest

def allNamedFit (nodes : List Code) : List (String × Code) → Prop
  | [] => True
  | (_, c) :: rest => c.fits nodes ∧ allNamedFit nodes rest

end

variable {nodes nodes' : List Code} {id : Nat}

theorem low_number {code node : Code} (known : nodes[id]? = some node) (named : code.id? = some id) :
    ∀ i, code.id? = some i → i < nodes.length := by
  intro i h
  cases named.symm.trans h
  exact (List.getElem?_eq_some_iff.mp known).1

theorem number_mono (longer : nodes <+: nodes') {node : Code} (known : nodes[id]? = some node) :
    nodes'[id]? = some node ∧ nodes'.take id = nodes.take id := by
  obtain ⟨more, rfl⟩ := longer
  obtain ⟨low, _⟩ := List.getElem?_eq_some_iff.mp known
  exact ⟨by rw [List.getElem?_append_left low, known], List.take_append_of_le_length (Nat.le_of_lt low)⟩

theorem allFit_iff (items : List Code) : allFit nodes items ↔ ∀ c ∈ items, c.fits nodes := by
  induction items with
  | nil => simp [allFit]
  | cons c rest ih => simp [allFit, ih]

theorem allNamedFit_iff (named : List (String × Code)) :
    allNamedFit nodes named ↔ ∀ c ∈ named.map (·.2), c.fits nodes := by
  induction named with
  | nil => simp [allNamedFit]
  | cons entry rest ih => simp [allNamedFit, ih]

theorem fits_plain_iff (plain : c.id? = none) : c.fits nodes ↔ ∀ d, c.Child d → d.fits nodes := by
  cases c with
  | builtin | call | choice | define => cases plain
  | _ => simp [fits, Child, children, allFit_iff, or_imp, forall_and, and_assoc]

theorem fits_numbered_iff (numbered : c.id? = some id) :
    c.fits nodes ↔ nodes[id]? = some c ∧ ∀ d, c.Child d → d.fits (nodes.take id) := by
  cases c with
  | builtin | call | define =>
    cases numbered
    simp [fits, Child, children, allFit_iff, allNamedFit_iff, or_imp, forall_and]
  | choice line id cond yes no inline =>
    cases numbered
    cases no <;> simp [fits, Child, children]
  | _ => cases numbered

theorem fits_mono (longer : nodes <+: nodes') (c : Code) (fit : c.fits nodes) : c.fits nodes' := by
  induction c using children_induction with
  | step c ih =>
    cases numbered : c.id? with
    | none =>
      rw [fits_plain_iff numbered] at fit ⊢
      exact fun d child => ih d child (fit d child)
    | some id =>
      rw [fits_numbered_iff numbered] at fit ⊢
      obtain ⟨known, same⟩ := number_mono longer fit.1
      exact ⟨known, same ▸ fit.2⟩

theorem fits_numbered (fit : c.fits nodes) (numbered : c.id? = some id) :
    nodes[id]? = some c ∧ ∀ d, c.Child d → d.fits (nodes.take id) :=
  (fits_numbered_iff numbered).mp fit

theorem fits_child {d : Code} (fit : c.fits nodes) (child : c.Child d) : d.fits nodes := by
  cases numbered : c.id? with
  | none => exact (fits_plain_iff numbered).mp fit d child
  | some id => exact fits_mono (List.take_prefix id nodes) d ((fits_numbered fit numbered).2 d child)

end Script.Code

namespace Script

/-- The visible definitions and the next number go with the nodes that were numbered. -/
structure Resolution.Fits (nodes : List Code) (s : Resolution) : Prop where
  next : s.next = nodes.length
  scopes : ∀ scope ∈ s.scopes, ∀ entry ∈ scope, entry.2.fits nodes

theorem Scopes.mem_define {scopes : Scopes} {name : String} {scope : List (String × Code)} {entry : String × Code}
    (mem : scope ∈ scopes.define name c) (here : entry ∈ scope) :
    entry = (name, c) ∨ ∃ old, old ∈ scopes ∧ entry ∈ old := by
  unfold Scopes.define at mem
  split at mem
  next =>
    cases List.mem_singleton.mp mem
    exact .inl (List.mem_singleton.mp here)
  next inner outer =>
    rcases List.mem_cons.mp mem with rfl | later
    · rcases List.mem_cons.mp here with added | before
      · exact .inl added
      · exact .inr ⟨inner, List.mem_cons_self .., before⟩
    · exact .inr ⟨scope, List.mem_cons_of_mem _ later, here⟩

variable {nodes : List Code}

theorem find_fits {s : Resolution} (fit : s.Fits nodes) {name : String} (found : s.scopes.find? name = some c) :
    c.fits nodes := by
  obtain ⟨scope, mem, looked⟩ := List.exists_of_findSome?_eq_some found
  obtain ⟨_, _, all, _⟩ := List.lookup_eq_some_iff.mp looked
  exact fit.scopes scope mem (name, c) (by rw [all]; simp)

theorem compile_eq_ok {text : String} {p : Program} (compiled : compile text = .ok p) :
    ∃ (t : Tree) (s : Resolution), outcome t.resolve {} = (.ok p.code, s) ∧ p.mutable = s.mutable := by
  unfold compile at compiled
  split at compiled
  next cs _ =>
    obtain ⟨parsed, _, compiled⟩ := bind_eq_ok compiled
    split at compiled
    next t _ =>
      obtain ⟨⟨t', _⟩, _, code, found, compiled⟩ := bind₂_eq_ok compiled
      cases compiled
      exact ⟨t', _, Prod.ext found rfl, rfl⟩
    next => cases compiled
  next => cases compiled

end Script

end PineEngine
