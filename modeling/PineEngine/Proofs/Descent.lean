import Mathlib.Logic.Relation
import PineEngine.Script.Code

/-! # The nodes of code

Code leads from a node to its children, and from these to theirs. No way leads back, so what holds of a node as soon as
it holds of its children, holds of all code (`Code.children_induction`). What is noted of the calls in a script comes
from nodes that can be reached (`Code.annotate_keeps`).
-/

namespace PineEngine.Script.Code

variable {named : List (String × Code)}

open Builtin List

/-- The nodes that a node leads to. The counter of a loop is defined by the loop. -/
def children : Code → List Code
  | .block _ items | .list _ items | .anyOf _ items | .allOf _ items => items
  | .literal _ _ | .builtin _ _ _ _ => []
  | .binary _ _ a b => [a, b]
  | .unary _ _ a => [a]
  | .variable _ _ target => [target]
  | .call _ _ _ args named => args ++ named.map (·.2)
  | .choice _ _ c y no _ => c :: y :: no.toList
  | .loop _ line id counter first last body => [.define line id counter first, last, body]
  | .define _ _ _ e => [e]
  | .assign _ _ target e => [target, e]
  | .inlined _ _ args body => args ++ [body]

def Child (c d : Code) : Prop :=
  d ∈ c.children

/-- The nodes that are evaluated for a node. The target of an assignment is not. -/
def evaluated : Code → List Code
  | .assign _ _ _ e => [e]
  | c => c.children

theorem child_of_evaluated {c d : Code} (mem : d ∈ c.evaluated) : c.Child d := by
  cases c with
  | assign line name target e => exact mem_cons_of_mem _ mem
  | _ => exact mem

/-- The nodes that can be reached from a node, itself among them. -/
def Reaches : Code → Code → Prop :=
  Relation.ReflTransGen Child

/-- The nodes that can be reached from a node by one step or more. -/
def Descends : Code → Code → Prop :=
  Relation.TransGen Child

theorem sizeOf_lt_of_mem_values {d : Code} (mem : d ∈ named.map (·.2)) :
    sizeOf d < sizeOf named := by
  obtain ⟨⟨name, c⟩, member, rfl⟩ := mem_map.mp mem
  have smaller := sizeOf_lt_of_mem member
  simp only [Prod.mk.sizeOf_spec] at smaller ⊢
  omega

theorem sizeOf_child {c d : Code} (child : c.Child d) : sizeOf d < sizeOf c := by
  cases c with
  | block line items | list line items | anyOf line items | allOf line items =>
    have smaller : sizeOf d < sizeOf items := sizeOf_lt_of_mem child
    simp only [block.sizeOf_spec, list.sizeOf_spec, anyOf.sizeOf_spec, allOf.sizeOf_spec]
    omega
  | literal | builtin => cases child
  | binary | unary | «variable» | define | assign =>
    simp only [Child, children, mem_cons, not_mem_nil, or_false] at child
    rcases child with rfl | rfl <;> simp <;> omega
  | loop line counterLine id counter first last body =>
    have pos : 0 < sizeOf last := by cases last <;> simp <;> omega
    simp only [Child, children, mem_cons, not_mem_nil, or_false] at child
    rcases child with rfl | rfl | rfl <;> simp <;> omega
  | call id name fn args named =>
    simp only [call.sizeOf_spec]
    rcases mem_append.mp child with placed | byName
    · have smaller := sizeOf_lt_of_mem placed
      omega
    · have smaller := sizeOf_lt_of_mem_values byName
      omega
  | choice line id cond yes no inline =>
    cases no with
    | none =>
      simp only [Child, children, Option.toList_none, mem_cons, not_mem_nil, or_false] at child
      rcases child with rfl | rfl <;> simp <;> omega
    | some e =>
      simp only [Child, children, Option.toList_some, mem_cons, not_mem_nil, or_false] at child
      rcases child with rfl | rfl | rfl <;> simp <;> omega
  | inlined name params args body =>
    simp only [inlined.sizeOf_spec]
    rcases mem_append.mp child with placed | last
    · have smaller := sizeOf_lt_of_mem placed
      omega
    · cases mem_singleton.mp last
      omega

theorem ne_of_descends {c d : Code} (way : c.Descends d) : d ≠ c := by
  have smaller : sizeOf d < sizeOf c := by
    induction way with
    | single child => exact sizeOf_child child
    | tail _ child ih => exact Nat.lt_trans (sizeOf_child child) ih
  rintro rfl
  exact Nat.lt_irrefl _ smaller

theorem children_induction {motive : Code → Prop} (step : ∀ c, (∀ d, c.Child d → motive d) → motive c) (c : Code) :
    motive c :=
  step c fun d child =>
    have := sizeOf_child child
    children_induction step d
termination_by sizeOf c

theorem annotateAll_eq (a : Annotations) (cs : List Code) : annotateAll a cs = cs.foldl annotate a := by
  induction cs generalizing a with
  | nil => rfl
  | cons c cs ih => exact ih _

theorem annotateNamed_eq (a : Annotations) (cs : List (String × Code)) :
    annotateNamed a cs = (cs.map (·.2)).foldl annotate a := by
  induction cs generalizing a with
  | nil => rfl
  | cons c cs ih => exact ih _

def annotated : Code → Bool
  | .call _ _ fn _ _ => fn.role != .plain
  | _ => false

theorem annotate_children {c : Code} (plain : c.annotated = false) (a : Annotations) :
    c.annotate a = c.children.foldl annotate a := by
  cases c with
  | block | list | anyOf | allOf => exact annotateAll_eq ..
  | call id name fn args named =>
    rw [annotate, if_pos (by simpa [annotated] using plain), annotateNamed_eq, annotateAll_eq, ← foldl_append]
    rfl
  | choice line id c y no inline => cases no <;> rfl
  | inlined =>
    rw [annotate, annotateAll_eq, children, foldl_append]
    rfl
  | _ => rfl

theorem annotate_call {id : Nat} {name : String} {fn : Function} {args : List Code}
    (role : (call id name fn args named).annotated) (a : Annotations) :
    (call id name fn args named).annotate a = a.note (.call id name fn args named) fn.role := by
  rw [annotate, if_neg (by simpa [annotated] using role)]

theorem annotate_keeps {P : Annotations → Prop} {K : Code → Prop} (down : ∀ {c d : Code}, K c → c.Child d → K d)
    (note : ∀ {a id name fn args named}, K (.call id name fn args named) → fn.role ≠ .plain → P a →
      P (a.note (.call id name fn args named) fn.role))
    (c : Code) (ok : K c) {a : Annotations} (holds : P a) : P (c.annotate a) := by
  induction c using children_induction generalizing a with
  | step c ih =>
    have folds (cs : List Code) (mem : ∀ d ∈ cs, c.Child d) {a : Annotations} (holds : P a) :
        P (cs.foldl annotate a) := by
      induction cs generalizing a with
      | nil => exact holds
      | cons d cs rest =>
        have child := mem d (.head _)
        exact rest (fun e here => mem e (.tail _ here)) (ih d child (down ok child) holds)
    cases role : c.annotated with
    | false =>
      rw [annotate_children role]
      exact folds c.children (fun _ mem => mem) holds
    | true =>
      cases c with
      | call =>
        rw [annotate_call role]
        exact note ok (by simpa [annotated] using role) holds
      | _ => cases role

end PineEngine.Script.Code
