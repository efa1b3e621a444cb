import PineEngine.Script.Layout

/-! # Marks of the layout

The marks that the layout puts into a text open and close blocks. Read in their order they never close a
block that is not open, and at the end of the text no block is open (`Layout.mark?_closes`).

`Carries` says how the marks stand in a text: each of them in one piece, with nothing but further marks
between it and the end of its line. No other character of such a text is a bar.
-/

namespace PineEngine.Script

open List Option

/-- With `depth` blocks open before them the marks close all blocks: a closing mark always finds a block
    that is open, and none is open at the end. -/
def Closes : (depth : Nat) → List Mark → Prop
  | depth, [] => depth = 0
  | depth, .opening :: rest => Closes (depth + 1) rest
  | 0, .closing :: _ => False
  | depth + 1, .closing :: rest => Closes depth rest
  | depth, .delim :: rest => Closes depth rest

namespace Closes

theorem openings {depth rest} (n : Nat) :
    Closes depth (replicate n .opening ++ rest) ↔ Closes (depth + n) rest := by
  induction n generalizing depth with
  | zero => rfl
  | succ n ih =>
    rw [replicate_succ, cons_append, Closes, ih]
    rw [show depth + 1 + n = depth + (n + 1) by omega]

theorem closings {depth rest} (n : Nat) :
    Closes (depth + n) (replicate n .closing ++ rest) ↔ Closes depth rest := by
  induction n with
  | zero => rfl
  | succ n ih => rw [replicate_succ, cons_append, ← Nat.add_assoc, Closes, ih]

theorem allClosed (depth : Nat) : Closes depth (replicate depth .closing) := by
  have closed : Closes (0 + depth) (replicate depth .closing ++ []) := (closings depth).mpr rfl
  simpa only [Nat.zero_add, append_nil] using closed

end Closes

namespace Layout

theorem marksBefore_closes (current : Nat) (rest : List (List Char)) (tail : List Mark) :
    Closes current (marksBefore current rest ++ tail) ↔
      Closes ((nextLevel? rest).getD current) tail := by
  cases found : nextLevel? rest with
  | none => simp only [marksBefore, found, cons_append, nil_append, Closes, getD_none]
  | some next =>
    simp only [marksBefore, found, getD_some]
    by_cases deeper : current < next
    · rw [if_pos deeper, Closes.openings, Nat.add_sub_cancel' (Nat.le_of_lt deeper)]
    · rw [if_neg deeper, cons_append, Closes]
      have split : current = next + (current - next) := by omega
      rw [split, Nat.add_sub_cancel_left, Closes.closings]

theorem markLines_closes (depth : Nat) {lines : List (List Char)} (nonempty : lines ≠ []) :
    Closes ((nextLevel? lines).getD depth) ((markLines depth lines).flatMap MarkedLine.marks) := by
  induction lines generalizing depth with
  | nil => exact absurd rfl nonempty
  | cons line rest ih =>
    by_cases blank : line.isEmpty
    · cases rest with
      | nil =>
        simp only [nextLevel?, markLines, blank, if_true, isEmpty_nil, flatMap_cons,
          flatMap_nil, nil_append, append_nil, getD_none]
        exact Closes.allClosed depth
      | cons next rest =>
        have tail := ih depth (cons_ne_nil next rest)
        rw [nextLevel?, if_pos blank, markLines]
        simpa only [blank, if_true, isEmpty_cons, Bool.false_eq_true, if_false,
          flatMap_cons, nil_append] using tail
    · rw [nextLevel?, if_neg blank, getD_some, markLines]
      simp only [blank, Bool.false_eq_true, if_false, flatMap_cons]
      rw [append_assoc, marksBefore_closes]
      cases rest with
      | nil =>
        simp only [nextLevel?, getD_none, isEmpty_nil, if_true, markLines,
          flatMap_nil, append_nil]
        exact Closes.allClosed (level line)
      | cons next rest =>
        simpa only [isEmpty_cons, Bool.false_eq_true, if_false, nil_append] using
          ih (level line) (cons_ne_nil next rest)

theorem mark?_closes {lines ls} (marked : mark? lines = some ls) :
    Closes 0 (ls.flatMap MarkedLine.marks) := by
  cases lines with
  | nil => cases marked; rfl
  | cons first rest =>
    have body := markLines_closes 0 (cons_ne_nil first rest)
    by_cases blank : first.isEmpty
    · simp only [mark?, blank, if_true, markLines, Option.some.injEq] at marked
      subst marked
      simp only [nextLevel?, blank, if_true, markLines] at body
      simp only [flatMap_cons, append_assoc, Closes.openings, Nat.zero_add]
      simpa only [flatMap_cons, append_assoc] using body
    · by_cases flat : level first = 0
      · simp only [mark?, blank, Bool.false_eq_true, if_false, flat, beq_self_eq_true, if_true,
          Option.some.injEq] at marked
        subst marked
        simpa only [nextLevel?, blank, Bool.false_eq_true, if_false, getD_some, flat] using body
      · simp [mark?, blank, flat] at marked

theorem markLines_text (depth : Nat) (lines : List (List Char)) :
    (markLines depth lines).map MarkedLine.text = lines := by
  induction lines generalizing depth with
  | nil => rfl
  | cons line rest ih => rw [markLines, map_cons, ih]

theorem mark?_text {lines ls} (marked : mark? lines = some ls) : ls.map MarkedLine.text = lines := by
  cases lines with
  | nil => cases marked; rfl
  | cons first rest =>
    have same := markLines_text 0 (first :: rest)
    simp only [mark?] at marked
    split at marked
    · simp only [markLines, Option.some.injEq] at marked
      subst marked
      simpa only [map_cons, markLines] using same
    · split at marked
      · cases marked; exact same
      · cases marked

end Layout

/-- Nothing stands before the end of the line but perhaps a mark. -/
def OnlyMarksNext (cs : List Char) : Prop :=
  ∀ c ∈ cs.head?, c = '\n' ∨ c = '|'

inductive Carries : List Char → List Mark → Prop where
  | nil : Carries [] []
  /-- A character that belongs to no mark. -/
  | char {c cs ms} : c ≠ '|' → Carries cs ms → Carries (c :: cs) ms
  /-- A mark, at the end of its line. -/
  | mark {cs ms} (m : Mark) : OnlyMarksNext cs → Carries cs ms → Carries (m.text ++ cs) (m :: ms)

theorem Mark.text_head (m : Mark) (cs : List Char) : (m.text ++ cs).head? = some '|' := by
  cases m <;> rfl

namespace Carries

theorem of_nil {ms} (carried : Carries [] ms) : ms = [] := by
  generalize text : ([] : List Char) = cs at carried
  cases carried with
  | nil => rfl
  | char => cases text
  | mark m => cases m <;> cases text

theorem of_mark {m : Mark} {cs ms} (carried : Carries (m.text ++ cs) ms) : ∃ later, ms = m :: later ∧ Carries cs later := by
  generalize text : m.text ++ cs = t at carried
  cases carried with
  | nil => cases m <;> cases text
  | char other _ => cases m <;> cases text <;> exact absurd rfl other
  | mark m' _ carried => cases m <;> cases m' <;> cases text <;> exact ⟨_, rfl, carried⟩

theorem plain {text rest ms} (noBar : '|' ∉ text) (carried : Carries rest ms) :
    Carries (text ++ rest) ms := by
  induction text with
  | nil => exact carried
  | cons c text ih =>
    simp only [mem_cons, not_or] at noBar
    exact .char (Ne.symm noBar.1) (ih noBar.2)

theorem drop {cs ms} (n : Nat) (carried : Carries cs ms) (noBar : '|' ∉ cs.take n) :
    Carries (cs.drop n) ms := by
  induction n generalizing cs with
  | zero => exact carried
  | succ n ih =>
    cases carried with
    | nil => exact .nil
    | char _ rest =>
      simp only [take_succ_cons, mem_cons, not_or] at noBar
      exact ih rest noBar.2
    | @mark cs _ m _ _ =>
      obtain ⟨tail, text⟩ := head?_eq_some_iff.mp (m.text_head cs)
      rw [text, take_succ_cons] at noBar
      exact absurd (.head _) noBar

theorem marks {tail ms} (ends : OnlyMarksNext tail) (carried : Carries tail ms) (marks : List Mark) :
    Carries (marks.flatMap Mark.text ++ tail) (marks ++ ms) := by
  induction marks with
  | nil => exact carried
  | cons m rest ih =>
    rw [flatMap_cons, append_assoc, cons_append]
    refine .mark m ?_ ih
    cases rest with
    | nil => exact ends
    | cons next rest =>
      intro c head
      rw [flatMap_cons, append_assoc, Mark.text_head] at head
      exact Or.inr (Option.some.inj head).symm

theorem noQuote {cs ms} (carried : Carries cs ms) (bar : cs.head? = some '|') {q : Char}
    (quote : q = '"' ∨ q = '\'') : q ∉ cs.takeWhile (· != '\n') := by
  induction carried with
  | nil => simp at bar
  | char other _ _ => exact absurd (Option.some.inj bar) other
  | @mark cs ms m ends _ ih =>
    have inside : ∀ c ∈ m.text, c != '\n' := all_eq_true.mp (by cases m <;> decide)
    rw [takeWhile_append_of_pos inside, mem_append, not_or]
    constructor
    · rcases quote with rfl | rfl <;> cases m <;> decide
    · cases cs with
      | nil => simp
      | cons c cs =>
        rcases ends c rfl with rfl | rfl
        · simp
        · exact ih rfl

end Carries

namespace Layout

theorem joinLines_carries {ls : List MarkedLine} (noBar : ∀ l ∈ ls, '|' ∉ l.text) :
    Carries (joinLines (ls.map MarkedLine.render)) (ls.flatMap MarkedLine.marks) := by
  induction ls with
  | nil => exact .nil
  | cons l rest ih =>
    have tail := ih fun l' member => noBar l' (.tail _ member)
    have own := noBar l (.head _)
    cases rest with
    | nil =>
      have ended : OnlyMarksNext [] := by intro c head; simp at head
      have here := Carries.plain own (Carries.marks ended .nil l.marks)
      simpa [joinLines, MarkedLine.render] using here
    | cons next rest =>
      have ended : OnlyMarksNext ('\n' :: joinLines ((next :: rest).map MarkedLine.render)) := by
        intro c head
        exact Or.inl (Option.some.inj head).symm
      have here := Carries.plain own (Carries.marks ended (.char (by decide) tail) l.marks)
      rw [flatMap_cons, map_cons, map_cons, joinLines, intercalate_cons_cons]
      simpa only [joinLines, map_cons, MarkedLine.render, append_assoc,
        cons_append, nil_append] using here

mutual
theorem dropComments_subset (cs : List Char) : dropComments cs ⊆ cs := by
  unfold dropComments
  split
  · exact Subset.refl _
  · exact Subset.trans (skip_subset _)
      (Subset.trans (subset_cons_self _ _) (subset_cons_self _ _))
  · exact cons_subset_cons _ (dropComments_subset _)
termination_by cs.length

theorem skip_subset (cs : List Char) : dropComments.skip cs ⊆ cs := by
  unfold dropComments.skip
  split
  · exact Subset.refl _
  · exact cons_subset_cons _ (dropComments_subset _)
  · exact Subset.trans (skip_subset _) (subset_cons_self _ _)
termination_by cs.length
end

theorem lines_go_subset (line cs : List Char) {l} (member : l ∈ Text.lines.go line cs) :
    l ⊆ line ++ cs := by
  fun_induction Text.lines.go line cs with
  | case1 => simp at member
  | case2 line => exact subset_append_of_subset_left _ (by simp_all)
  | case3 line rest ih | case4 line c rest _ _ ih =>
    rcases mem_cons.mp member with rfl | later
    · intro d inside
      exact mem_append_left _ (mem_reverse.mp inside)
    · intro d inside
      have deeper : d ∈ rest := ih later inside
      simp [deeper]
  | case5 line c rest _ _ ih =>
    intro d inside
    have either : d ∈ c :: line ++ rest := ih member inside
    simp only [cons_append, mem_cons, mem_append] at either ⊢
    rcases either with own | before | after
    · exact .inr (.inl own)
    · exact .inl before
    · exact .inr (.inr after)

theorem trimEnd_subset (cs : List Char) : Text.trimEnd cs ⊆ cs := by
  intro c inside
  have kept := (dropWhile_sublist Text.isBlank).mem (mem_reverse.mp inside)
  exact mem_reverse.mp kept

theorem prepare?_carries {code : String} {cs} (noBar : '|' ∉ code.toList)
    (prepared : prepare? code = some cs) : ∃ ms, Carries cs ms ∧ Closes 0 ms := by
  simp only [prepare?, complement?, map_eq_some_iff] at prepared
  obtain ⟨ls, marked, rfl⟩ := prepared
  refine ⟨_, joinLines_carries ?_, mark?_closes marked⟩
  intro l member bar
  have isLine : l.text ∈ (Text.lines (dropComments code.toList)).map Text.trimEnd := by
    rw [← mark?_text marked]
    exact mem_map_of_mem member
  obtain ⟨line, isLine, trimmed⟩ := mem_map.mp isLine
  rw [← trimmed] at bar
  have inText := lines_go_subset [] _ isLine (trimEnd_subset line bar)
  exact noBar (dropComments_subset _ inText)

end Layout

end PineEngine.Script
