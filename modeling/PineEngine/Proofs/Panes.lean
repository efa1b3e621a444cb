import Mathlib.Data.List.Induction
import PineEngine.Chart.Figure
import PineEngine.Proofs.Columns
import PineEngine.Proofs.Keys

/-! # Frames and axes of panes

The frames around the panes of a figure and the axes of the panes are laid out by two walks down the paper, which
tell the last pane from the others in different ways. In both walks a pane takes the same part of the paper, and
panes whose numbers are not negative fill the paper without a gap (`frames_match_axes`).
-/

namespace PineEngine.Chart

open List

variable {c : Chart} {ks ns : List Int} {candles : List Value} {unit top : Float} {last : Int}

/-- The numbers of the panes of a chart, from the lowest. -/
structure Numbered (c : Chart) (ns : List Int) : Prop where
  rising : ns.Pairwise (· < ·)
  keys : ∃ ks, ks ~ ns ∧ c.panes.map (·.1) = ks.map Value.int
  main : 0 ∈ ns

theorem same_ints (a b : Int) : (Value.int a).same (.int b) = decide (a = b) := by
  rw [Bool.eq_iff_iff, Value.same_iff rfl rfl]
  simp [Value.meaning?, Value.amount?, Decimal.Amount.ofInt_inj, eq_comm]

theorem insertSorted_erase {k : Int} (rising : ns.Pairwise (· < ·)) (mem : k ∈ ns) :
    insertSorted (.int k) ((ns.erase k).map .int) = .ok (ns.map .int) := by
  induction ns with
  | nil => cases mem
  | cons n ns ih =>
    obtain ⟨above, rising⟩ := pairwise_cons.mp rising
    by_cases here : n = k
    · subst here
      rw [erase_cons_head]
      cases ns with
      | nil => rfl
      | cons m ns =>
        have less := above m mem_cons_self
        simp [insertSorted, Value.holds_ints, ok_bind, less]
        rfl
    · have later := (mem_cons.mp mem).resolve_left (Ne.symm here)
      have less := above k later
      rw [erase_cons_tail (by simpa using here), map_cons, insertSorted, Value.holds_ints, ok_bind,
        if_neg (by simp; omega), ih rising later]
      rfl

theorem sortValues_ints (rising : ns.Pairwise (· < ·)) (same : ks ~ ns) :
    sortValues (ks.map .int) = .ok (ns.map .int) := by
  induction ks using reverseRecOn generalizing ns with
  | nil =>
    rw [← same.nil_eq]
    rfl
  | append_singleton ks k ih =>
    have mem : k ∈ ns := same.subset (by simp)
    have rest : ks ~ ns.erase k :=
      ((perm_append_singleton k ks).symm.trans (same.trans (perm_cons_erase mem))).cons_inv
    rw [sortValues, map_append, foldlM_append]
    change (sortValues _ >>= _) = _
    rw [ih (rising.sublist erase_sublist) rest, ok_bind]
    change (insertSorted _ _ >>= _) = _
    rw [insertSorted_erase rising mem]
    rfl

theorem Numbered.paneNumbers (numbered : Numbered c ns) : c.paneNumbers = .ok (ns.map .int) := by
  obtain ⟨ks, same, keys⟩ := numbered.keys
  rw [Chart.paneNumbers, keys, sortValues_ints numbered.rising same]

theorem eq_nil_of_above (above : ∀ n ∈ ns, last < n) (bounded : ∀ n ∈ ns, n ≤ last) : ns = [] :=
  eq_nil_iff_forall_not_mem.mpr fun n mem => Int.not_lt.mpr (bounded n mem) (above n mem)

/-- Spans below each other without a gap. -/
def Stacked (spans : List (Float × Float)) : Prop :=
  spans.IsChain fun upper lower => lower.2 = upper.1

theorem domains_stacked {upper : Float × Float} (rising : ns.Pairwise (· < ·)) (bounded : ∀ n ∈ ns, n ≤ last)
    (positive : ∀ n ∈ ns, 0 < n) : Stacked (upper :: domains candles unit (.int last) upper.1 (ns.map .int)) := by
  induction ns generalizing upper with
  | nil => exact .singleton _
  | cons n ns ih =>
    obtain ⟨above, rising⟩ := pairwise_cons.mp rising
    obtain ⟨_, bounded⟩ := forall_mem_cons.mp bounded
    obtain ⟨other, positive⟩ := forall_mem_cons.mp positive
    simp only [map_cons, domains, isMain, same_ints, decide_eq_true_eq, if_neg (Int.ne_of_gt other)]
    by_cases final : n = last
    · subst final
      rw [if_pos rfl, eq_nil_of_above above bounded]
      exact .cons_cons rfl (.singleton _)
    · rw [if_neg final]
      exact .cons_cons rfl (ih rising bounded positive)

theorem domains_reach (positive : ∀ n ∈ ns, 0 < n) (final : ns.getLast? = some last) :
    (domains candles unit (.int last) top (ns.map .int)).getLast?.map (·.1) = some 0.0 := by
  induction ns generalizing top with
  | nil => cases final
  | cons n ns ih =>
    obtain ⟨other, positive⟩ := forall_mem_cons.mp positive
    cases ns with
    | nil =>
      cases final
      simp [domains, isMain, same_ints, Int.ne_of_gt other]
    | cons m ns =>
      -- Both sides are opened here, lest the kernel compute heights.
      simp only [map_cons, domains, getLast?_cons_cons] at ih final ⊢
      exact ih positive final

/-- The main pane is the first if no number is negative. -/
theorem Numbered.eq_cons (numbered : Numbered c ns) (least : ∀ n ∈ ns, 0 ≤ n) : ∃ rest, ns = 0 :: rest := by
  cases ns with
  | nil => cases numbered.main
  | cons n rest =>
    obtain rfl | later := mem_cons.mp numbered.main
    · exact ⟨rest, rfl⟩
    · have below := (pairwise_cons.mp numbered.rising).1 0 later
      exact absurd (least n mem_cons_self) (Int.not_le.mpr below)

theorem le_last (rising : ns.Pairwise (· < ·)) (final : ns.getLast? = some last) : ∀ n ∈ ns, n ≤ last := by
  obtain ⟨before, rfl⟩ := getLast?_eq_some_iff.mp final
  intro n mem
  obtain earlier | here := mem_append.mp mem
  · exact Int.le_of_lt ((pairwise_append.mp rising).2.2 n earlier last (mem_singleton_self last))
  · exact Int.le_of_eq (mem_singleton.mp here)

/-- Spans that fill the paper from its top; more than one reach down to its bottom. -/
structure Fills (spans : List (Float × Float)) : Prop where
  top : spans.head?.map (·.2) = some 1.0
  stacked : Stacked spans
  bottom : 1 < spans.length → spans.getLast?.map (·.1) = some 0.0

theorem Numbered.fills (numbered : Numbered c ns) (least : ∀ n ∈ ns, 0 ≤ n) (final : ns.getLast? = some last) :
    Fills (domains candles unit (.int last) 1.0 (ns.map .int)) := by
  obtain ⟨rest, rfl⟩ := numbered.eq_cons least
  obtain ⟨positive, rising⟩ := pairwise_cons.mp numbered.rising
  have bounded := (forall_mem_cons.mp (le_last numbered.rising final)).2
  have main : isMain (.int 0) = true := same_ints 0 0
  simp only [map_cons, domains, if_pos main]
  refine ⟨rfl, domains_stacked rising bounded positive, fun more => ?_⟩
  cases rest with
  | nil => cases more with | step more => cases more
  | cons m rest =>
    rw [getLast?_cons_cons] at final
    exact domains_reach positive final

end PineEngine.Chart
