import PineEngine.Proofs.Marks

/-! # Indentation and marks

A text is refused just if its first line is indented and not blank. Else the layout keeps its lines, without the
blanks at their ends, and puts marks behind them: up to the end of a line as many blocks are opened and not closed
as the next line that is not blank is indented by (`complement?_indents`).
-/

namespace PineEngine.Script

open List

/-- How many more blocks the marks open than they close. -/
def opened (ms : List Mark) : Int :=
  ms.count .opening - ms.count .closing

theorem opened_append (ms ms' : List Mark) : opened (ms ++ ms') = opened ms + opened ms' := by
  simp only [opened, count_append]
  omega

theorem Closes.opened {depth : Nat} {ms : List Mark} (closes : Closes depth ms) : Script.opened ms = -depth := by
  fun_induction Closes depth ms with
  | case1 depth => simp [Script.opened, closes]
  | case2 depth ms ih | case4 depth ms ih | case5 depth ms ih =>
    have later := ih closes
    simp only [Script.opened, count_cons] at later ⊢
    simp
    omega
  | case3 => cases closes

namespace Layout

variable {ls before after : List MarkedLine} {l : MarkedLine} {lines : List (List Char)}

theorem lines_noFeed {line cs l : List Char} (inner : '\n' ∉ line) (mem : l ∈ Text.lines.go line cs) : '\n' ∉ l := by
  fun_induction Text.lines.go line cs with
  | case1 => cases mem
  | case2 => simp_all
  | case3 line rest ih | case4 line c rest _ _ ih =>
    rcases mem_cons.mp mem with rfl | later
    · simpa using inner
    · exact ih not_mem_nil later
  | case5 line c rest _ other ih =>
    refine ih (fun feed => ?_) mem
    rcases mem_cons.mp feed with rfl | feed
    · exact other rfl
    · exact inner feed

theorem markLines_rest (before : List MarkedLine) {depth : Nat} (marked : markLines depth lines = before ++ after) :
    ∃ d, after = markLines d (after.map MarkedLine.text) := by
  induction before generalizing depth lines with
  | nil => exact ⟨depth, by rw [← nil_append after, ← marked, markLines_text]⟩
  | cons l before ih =>
    cases lines with
    | nil => cases marked
    | cons line rest => exact ih (cons.inj marked).2

theorem markLines_blank (depth : Nat) (lines : List (List Char)) :
    ∀ l ∈ markLines depth lines, l.text = [] → .delim ∉ l.marks := by
  induction lines generalizing depth with
  | nil => nofun
  | cons line rest ih =>
    rw [markLines, forall_mem_cons]
    refine ⟨fun blank => ?_, ih _⟩
    cases show line = [] from blank
    cases rest <;> simp

/-- All lines but the first are marked by `markLines`, and the first may open a block in front of its marks. -/
theorem mark?_eq (marked : mark? lines = some ls) : ls = markLines 0 lines ∨
    ∃ n l rest, markLines 0 lines = l :: rest ∧ ls = ⟨l.text, replicate n .opening ++ l.marks⟩ :: rest := by
  cases lines with
  | nil => exact .inl (Option.some.inj marked).symm
  | cons first rest =>
    simp only [mark?] at marked
    split at marked
    · cases marked
      exact .inr ⟨_, _, _, rfl, rfl⟩
    · split at marked <;> cases marked
      exact .inl rfl

theorem mark?_rest (marked : mark? lines = some (before ++ l :: after)) :
    ∃ d, after = markLines d (after.map MarkedLine.text) := by
  rw [append_cons] at marked
  obtain same | ⟨n, first, rest, all, same⟩ := mark?_eq marked
  · exact markLines_rest _ same.symm
  · cases before with
    | nil =>
      obtain ⟨_, rfl⟩ := cons.inj same
      exact markLines_rest [first] all
    | cons b before =>
      obtain ⟨_, rfl⟩ := cons.inj same
      exact markLines_rest (first :: (before ++ [l])) all

theorem mark?_blank (marked : mark? lines = some ls) : ∀ l ∈ ls, l.text = [] → .delim ∉ l.marks := by
  obtain rfl | ⟨n, first, rest, all, rfl⟩ := mark?_eq marked
  · exact markLines_blank 0 lines
  · have blank := markLines_blank 0 lines
    rw [all, forall_mem_cons] at blank
    refine forall_mem_cons.mpr ⟨fun empty => ?_, blank.2⟩
    simpa [mem_replicate] using blank.1 empty

theorem level_eq_zero (line : List Char) : level line = 0 ↔ ∀ c ∈ line.head?, c ≠ ' ' ∧ c ≠ '\t' := by
  unfold level width
  split
  · simp
  · simp
    omega
  · cases line <;> simp_all

theorem mark?_eq_none : mark? lines = none ↔ ∃ first ∈ lines.head?, ∃ c ∈ first.head?, c = ' ' ∨ c = '\t' := by
  cases lines with
  | nil => simp [mark?]
  | cons first rest =>
    have flat := level_eq_zero first
    cases first with
    | nil => simp [mark?, markLines]
    | cons c first =>
      have refused : mark? ((c :: first) :: rest) = none ↔ level (c :: first) ≠ 0 := by simp [mark?]
      rw [refused, ne_eq, flat]
      simp [← Decidable.or_iff_not_imp_left]

theorem nextLevel?_blanks {blanks rest : List (List Char)} {next : List Char} (blank : ∀ b ∈ blanks, b = [])
    (solid : next ≠ []) : nextLevel? (blanks ++ next :: rest) = some (level next) := by
  induction blanks with
  | nil => simp [nextLevel?, solid]
  | cons b blanks ih =>
    obtain ⟨rfl, others⟩ := forall_mem_cons.mp blank
    exact ih others

/-- The lines of a text without the blanks at their ends. -/
def trimmed (cs : List Char) : List (List Char) :=
  (Text.lines cs).map Text.trimEnd

theorem complement?_indents (cs : List Char) :
    (complement? cs = none ↔ ∃ first ∈ (trimmed cs).head?, ∃ c ∈ first.head?, c = ' ' ∨ c = '\t') ∧
    ∀ text, complement? cs = some text → ∃ ls : List MarkedLine,
      text = joinLines (ls.map MarkedLine.render) ∧ (∀ l ∈ ls, '\n' ∉ l.render) ∧ ls.map MarkedLine.text = trimmed cs ∧
      (∀ l ∈ ls, l.text = [] → .delim ∉ l.marks) ∧ opened (ls.flatMap MarkedLine.marks) = 0 ∧
      ∀ before l blanks next after, ls = before ++ l :: blanks ++ next :: after → (∀ b ∈ blanks, b.text = []) →
        next.text ≠ [] → opened ((before ++ [l]).flatMap MarkedLine.marks) = level next.text := by
  refine ⟨?_, fun text given => ?_⟩
  · rw [← mark?_eq_none, complement?, Option.map_eq_none_iff, trimmed]
  obtain ⟨ls, marked, rfl⟩ := Option.map_eq_some_iff.mp given
  have closes := (mark?_closes marked).opened
  refine ⟨ls, rfl, fun l mem => ?_, mark?_text marked, mark?_blank marked, closes, ?_⟩
  · obtain ⟨line, isLine, same⟩ : ∃ line ∈ Text.lines cs, Text.trimEnd line = l.text :=
      mem_map.mp (mark?_text marked ▸ mem_map_of_mem mem)
    have inner : '\n' ∉ l.text := fun feed => lines_noFeed not_mem_nil isLine (trimEnd_subset line (same ▸ feed))
    have marks : '\n' ∉ l.marks.flatMap Mark.text := by
      simp only [mem_flatMap, not_exists, not_and]
      intro m _
      cases m <;> decide
    simp [MarkedLine.render, inner, marks]
  · rintro before l blanks next after rfl blank solid
    rw [append_assoc, cons_append] at marked
    obtain ⟨d, rest⟩ := mark?_rest marked
    have nonempty : (blanks ++ next :: after).map MarkedLine.text ≠ [] := by simp
    have later := (markLines_closes d nonempty).opened
    have found : nextLevel? ((blanks ++ next :: after).map MarkedLine.text) = some (level next.text) := by
      rw [map_append, map_cons, nextLevel?_blanks _ solid]
      exact forall_mem_map.mpr blank
    rw [found, ← rest] at later
    simp [opened_append] at closes later ⊢
    omega

end Layout

end PineEngine.Script
