import PineEngine.Proofs.Linking

/-! # Which inputs are listed

The list of annotations is made by a walk that does not go into the arguments of a call with a role of its own
(`Code.survey`). So it lacks an input that is written in such arguments and nowhere else. The inputs that the walk comes
to are listed once each, in the order in which it first comes to them (`compile_inputs`).
-/

namespace PineEngine.Script

open List

variable {c d : Code}

namespace Code

def isInput : Code → Bool
  | .call _ _ fn _ _ => fn.role == .input
  | _ => false

/-- The nodes that can be reached without going into the arguments of a call with a role of its own. -/
def Sees : Code → Code → Prop :=
  Relation.ReflTransGen fun c d => c.annotated = false ∧ c.Child d

/-- The nodes that can be seen, each before what lies below it, as often as a way leads to it. -/
def survey (c : Code) : List Code :=
  c :: if c.annotated then [] else c.children.attach.flatMap fun d => d.1.survey
termination_by sizeOf c
decreasing_by exact sizeOf_child d.2

theorem survey_eq (c : Code) : c.survey = c :: if c.annotated then [] else c.children.flatMap survey := by
  rw [survey, flatMap_subtype (g := survey) fun _ _ => rfl, unattach_attach]

theorem mem_survey : d ∈ c.survey ↔ c.Sees d := by
  induction c using children_induction with
  | step c ih =>
    rw [survey_eq, Sees, Relation.ReflTransGen.cases_head_iff, mem_cons, eq_comm]
    refine or_congr_right ⟨fun mem => ?_, ?_⟩
    · split at mem
      next => cases mem
      next plain =>
        obtain ⟨first, child, mem⟩ := mem_flatMap.mp mem
        exact ⟨first, ⟨by simpa using plain, child⟩, (ih first child).mp mem⟩
    · rintro ⟨first, ⟨plain, child⟩, way⟩
      rw [if_neg (by simp [plain])]
      exact mem_flatMap.mpr ⟨first, child, (ih first child).mpr way⟩

theorem Sees.reaches (sees : c.Sees d) : c.Reaches d :=
  Relation.ReflTransGen.mono (fun _ _ step => step.2) _ _ sees

theorem isInput_numbered (input : c.isInput) : c.id?.isSome := by
  cases c with
  | call => rfl
  | _ => cases input

theorem annotated_of_isInput (input : c.isInput) : c.annotated := by
  cases c with
  | call id name fn args named =>
    have role : fn.role = .input := by simpa [isInput] using input
    simp [annotated, role]
  | _ => cases input

theorem annotate_inputs (c : Code) (a : Annotations) :
    (c.annotate a).inputs = (c.survey.filter isInput).foldl Annotations.addOnce a.inputs := by
  induction c using children_induction generalizing a with
  | step c ih =>
    rw [survey_eq]
    cases role : c.annotated with
    | true =>
      cases c with
      | call id name fn args named =>
        rw [annotate_call role]
        cases called : fn.role <;> simp [Annotations.note, isInput, called]
      | _ => cases role
    | false =>
      have other : ¬ c.isInput := fun input => Bool.false_ne_true (role.symm.trans (annotated_of_isInput input))
      have each (ds : List Code) (mem : ∀ d ∈ ds, c.Child d) (a : Annotations) : (ds.foldl annotate a).inputs =
          ((ds.flatMap survey).filter isInput).foldl Annotations.addOnce a.inputs := by
        induction ds generalizing a with
        | nil => rfl
        | cons d ds rest =>
          obtain ⟨child, others⟩ := forall_mem_cons.mp mem
          rw [foldl_cons, rest others, ih d child, flatMap_cons, filter_append, foldl_append]
      rw [annotate_children role, each _ fun _ child => child]
      simp [other]

end Code

namespace Annotations

variable {P : Code → Prop} (unique : ∀ {c d : Code}, P c → P d → d.id? = c.id? → d = c) {listed : List Code}
include unique

theorem addOnce_cases (known : ∀ c ∈ listed, P c) (here : P c) :
    c ∈ listed ∧ addOnce listed c = listed ∨ c ∉ listed ∧ addOnce listed c = listed ++ [c] := by
  unfold addOnce
  split
  next found =>
    obtain ⟨d, mem, same⟩ := any_eq_true.mp found
    obtain rfl : d = c := unique here (known d mem) (eq_of_beq same)
    exact .inl ⟨mem, rfl⟩
  next new => exact .inr ⟨fun mem => new (any_eq_true.mpr ⟨c, mem, beq_self_eq_true _⟩), rfl⟩

theorem listed_spec (known : ∀ c ∈ listed, P c) (distinct : listed.Nodup) {calls : List Code} (each : ∀ c ∈ calls, P c) :
    listed <+: calls.foldl addOnce listed ∧ (calls.foldl addOnce listed).Nodup ∧
      ∀ c, c ∈ calls.foldl addOnce listed ↔ c ∈ listed ∨ c ∈ calls := by
  induction calls generalizing listed with
  | nil => exact ⟨prefix_rfl, distinct, by simp⟩
  | cons c calls ih =>
    obtain ⟨here, rest⟩ := forall_mem_cons.mp each
    rw [foldl_cons]
    rcases addOnce_cases unique known here with ⟨among, same⟩ | ⟨new, same⟩ <;> rw [same]
    · obtain ⟨start, distinct, mem⟩ := ih known distinct rest
      refine ⟨start, distinct, fun d => (mem d).trans ⟨Or.imp_right (.tail _), ?_⟩⟩
      rw [mem_cons]
      rintro (old | rfl | later)
      · exact .inl old
      · exact .inl among
      · exact .inr later
    · have known' : ∀ d ∈ listed ++ [c], P d := by simpa [or_imp, forall_and, here] using known
      have distinct' : (listed ++ [c]).Nodup := nodup_append.mpr ⟨distinct, by simp, fun d among e single same =>
        new (mem_singleton.mp single ▸ same ▸ among)⟩
      obtain ⟨start, distinct, mem⟩ := ih known' distinct' rest
      exact ⟨(prefix_append ..).trans start, distinct, fun d => by simp [mem, or_assoc]⟩

end Annotations

/-- The inputs of a script that are listed are those that can be seen, so they are all inputs just if none is to be
    reached through the arguments of calls with a role alone. None is listed twice, and what the walk comes to first is
    listed first. -/
theorem compile_inputs {text : String} {p : Program} (compiled : compile text = .ok p) :
    p.code.annotations.inputs.Nodup ∧
      (∀ c, c ∈ p.code.annotations.inputs ↔ c.isInput ∧ p.code.Sees c) ∧
      ∀ k, ∃ n, ∀ c, c ∈ p.code.annotations.inputs.take n ↔ c.isInput ∧ c ∈ p.code.survey.take k := by
  obtain ⟨nodes, fit⟩ := compile_fits compiled
  have unique {c d : Code} (here : c.isInput ∧ p.code.Sees c) (there : d.isInput ∧ p.code.Sees d) :
      d.id? = c.id? → d = c :=
    Code.eq_of_number fit here.2.reaches there.2.reaches (Code.isInput_numbered here.1)
  have among {cs : List Code} (part : cs ⊆ p.code.survey) :
      ∀ c ∈ cs.filter Code.isInput, c.isInput ∧ p.code.Sees c := fun c here => by
    obtain ⟨member, input⟩ := mem_filter.mp here
    exact ⟨input, Code.mem_survey.mp (part member)⟩
  have inputs : p.code.annotations.inputs = _ := Code.annotate_inputs p.code {}
  obtain ⟨_, distinct, mem⟩ := Annotations.listed_spec unique (forall_mem_nil _) .nil (among (Subset.refl _))
  refine ⟨inputs ▸ distinct, fun c => ?_, fun k => ?_⟩
  · rw [inputs, mem, mem_filter, Code.mem_survey]
    simp [and_comm]
  · obtain ⟨_, distinct, mem⟩ := Annotations.listed_spec unique (forall_mem_nil _) .nil (among (take_subset k _))
    -- What was listed after some steps of the walk is what the list starts with.
    have known := fun c here => among (take_subset k _) c (((mem c).mp here).resolve_left not_mem_nil)
    obtain ⟨start, _⟩ := Annotations.listed_spec unique known distinct (among (drop_subset k _))
    rw [← List.foldl_append, ← List.filter_append, take_append_drop, ← inputs] at start
    refine ⟨(((p.code.survey.take k).filter Code.isInput).foldl Annotations.addOnce []).length, fun c => ?_⟩
    rw [← prefix_iff_eq_take.mp start, mem, mem_filter]
    simp [and_comm]

/-- A script with an input that a plot refers to, and one that is written in the arguments of a plot. -/
def plottedText : String :=
  "len = input(14)\nplot(sma(close, len))\nplot(input(5))\n"

theorem compile_inputs_plottedText : ∃ p, compile plottedText = .ok p ∧ p.code.annotations.inputs.length = 1 ∧
    p.code.annotations.inputs.Nodup ∧ (∀ c, c ∈ p.code.annotations.inputs ↔ c.isInput ∧ p.code.Sees c) ∧
    ∀ k, ∃ n, ∀ c, c ∈ p.code.annotations.inputs.take n ↔ c.isInput ∧ c ∈ p.code.survey.take k := by
  have accepted : (compile plottedText).toOption.any fun p => p.code.annotations.inputs.length == 1 := by decide +kernel
  obtain ⟨p, compiled, one⟩ := compile_any accepted
  exact ⟨p, compiled, eq_of_beq one, compile_inputs compiled⟩

def Code.firstArgument? : Code → Option Code
  | .block _ [.call _ _ _ (c :: _) _] => some c
  | _ => none

theorem Code.reaches_firstArgument (first : c.firstArgument? = some d) : c.Reaches d := by
  unfold firstArgument? at first
  split at first
  · cases first
    exact .tail (.single (.head _)) (.head _)
  · cases first

/-- An input that is written in the arguments of a plot is not listed. -/
theorem plotted_input_missing : ∃ p c, compile "plot(input(5))\n" = .ok p ∧ c.isInput ∧ p.code.Reaches c ∧
    c ∉ p.code.annotations.inputs := by
  have accepted : (compile "plot(input(5))\n").toOption.any fun p =>
      p.code.firstArgument?.any Code.isInput && p.code.annotations.inputs.isEmpty := by decide +kernel
  obtain ⟨p, compiled, shape⟩ := compile_any accepted
  obtain ⟨first, none⟩ := Bool.and_eq_true_iff.mp shape
  obtain ⟨c, found, input⟩ := (Option.any_eq_true _ _).mp first
  refine ⟨p, c, compiled, input, Code.reaches_firstArgument found, ?_⟩
  simp [isEmpty_iff.mp none]

end PineEngine.Script
