import PineEngine.Proofs.Linking

/-! # Assignments

An assignment changes the series that is kept for a definition, and the compiler notes the number of every definition
that some assignment changes (`compile_marked`). A machine gives such a definition a series of its own, which
only what refers to the definition can come to share.
-/

namespace PineEngine

open Script Builtin Computation

namespace Script

namespace Code

mutual

/-- Code that assigns only to definitions with the given numbers. -/
def marked (ids : List Nat) : Code → Prop
  | .block _ items | .list _ items | .anyOf _ items | .allOf _ items => allMarked ids items
  | .literal _ _ | .builtin _ _ _ _ => True
  | .binary _ _ a b => a.marked ids ∧ b.marked ids
  | .unary _ _ a => a.marked ids
  | .variable _ _ target => target.marked ids
  | .call _ _ _ args named => allMarked ids args ∧ allNamedMarked ids named
  | .choice _ _ c y none _ => c.marked ids ∧ y.marked ids
  | .choice _ _ c y (some e) _ => c.marked ids ∧ y.marked ids ∧ e.marked ids
  | .loop _ _ _ _ e l b => e.marked ids ∧ l.marked ids ∧ b.marked ids
  | .define _ _ _ e => e.marked ids
  | .assign _ _ target e => (∃ id ∈ ids, target.id? = some id) ∧ e.marked ids
  | .inlined _ _ args body => allMarked ids args ∧ body.marked ids

/-- Code in a row that assigns only to definitions with the given numbers. -/
def allMarked (ids : List Nat) : List Code → Prop
  | [] => True
  | c :: rest => c.marked ids ∧ allMarked ids rest

/-- Named arguments that assign only to definitions with the given numbers. -/
def allNamedMarked (ids : List Nat) : List (String × Code) → Prop
  | [] => True
  | (_, c) :: rest => c.marked ids ∧ allNamedMarked ids rest

end

variable {ids : List Nat}

theorem allMarked_iff (items : List Code) : allMarked ids items ↔ ∀ c ∈ items, c.marked ids := by
  induction items with
  | nil => simp [allMarked]
  | cons c rest ih => simp [allMarked, ih]

theorem allNamedMarked_iff (named : List (String × Code)) :
    allNamedMarked ids named ↔ ∀ c ∈ named.map (·.2), c.marked ids := by
  induction named with
  | nil => simp [allNamedMarked]
  | cons entry rest ih => simp [allNamedMarked, ih]

theorem marked_part {c d : Code} (marked : c.marked ids) (mem : d ∈ c.evaluated) : d.marked ids := by
  cases c with
  | choice line id c y no inline => cases no <;> grind [Code.marked, evaluated, children]
  | _ => grind [Code.marked, evaluated, children, allMarked_iff, allNamedMarked_iff]

theorem marked_of_children {c : Code} (settled : c.Settled ids) (children : ∀ d, c.Child d → d.marked ids) :
    c.marked ids := by
  cases c with
  | choice line id c y no inline => cases no <;> simpa [Code.marked, Child, Code.children] using children
  | assign line name target e =>
    obtain ⟨_, id, ⟨⟩, _, numbered, mem⟩ := settled
    exact ⟨⟨id, mem, numbered⟩, children e (.tail _ (.head _))⟩
  | literal | builtin => trivial
  | _ =>
    simpa [Code.marked, Child, Code.children, allMarked_iff, allNamedMarked_iff, or_imp, forall_and] using children

theorem AllMade.marked {c : Code} (made : c.AllMade ids) : c.marked ids := by
  induction c using children_induction with
  | step c ih => exact marked_of_children (made c .refl).settled fun d child => ih d child (made.child child)

end Code

theorem compile_marked {text : String} {p : Program} (compiled : compile text = .ok p) : p.code.marked p.mutable :=
  (compile_made compiled).marked

end Script

end PineEngine
