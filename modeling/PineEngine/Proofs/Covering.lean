import PineEngine.Proofs.Lexemes

/-! # Covering a text

The pieces that the lexer cuts a text into cover it (`Lexer.run_covers`): put one after the other they are
the text, each is of one of four kinds, and a token knows the position and the line at which it starts.
-/

namespace PineEngine.Script

open List

/-- Whether the value of a token goes with its text. Numbers and truth values are read from it, a text in
    quotes is what stands between them, and any other token has its text for a value. -/
def Token.Valued (t : Token) : Prop :=
  match t.kind with
  | .float | .int | .bool => True
  | .str => ∃ q body, (q = '"' ∨ q = '\'') ∧ t.lexeme = q :: body ++ [q] ∧ t.value = .text (.ofList body)
  | _ => t.value = .text (.ofList t.lexeme)

/-- What a piece can be that starts at a position, in a line. -/
def Piece.Fits (line pos : Nat) : Piece → Prop
  | .token t => t.lexeme ≠ [] ∧ t.pos = pos ∧ t.line = line ∧ t.Valued
  | .swallowed kind cs => ∃ m : Mark, kind = m.kind ∧ cs = m.text
  | .blanks cs => cs ≠ [] ∧ ∀ c ∈ cs, c = ' ' ∨ c = '\t'
  | .lineFeeds cs => cs ≠ [] ∧ ∀ c ∈ cs, c = '\n'

namespace Lexical.Taken

variable {cs : List Char} {n : Nat} {kind : TokenKind}

theorem sameLine (taken : Taken cs n (.token kind)) : '\n' ∉ cs.take n := by
  cases taken with
  | word listed fits =>
    rw [(fixed_eq fits).2]
    exact (words_fit _ listed).2.2.1
  | clear _ clear => exact fun feed => absurd (all_eq_true.mp clear.plain _ feed) (by decide)
  | str fits =>
    obtain ⟨q, inner, rest, quote, ⟨_, sameLine⟩, rfl, rfl⟩ := str_eq fits
    have feed : '\n' ≠ q := by rcases quote with rfl | rfl <;> decide
    rw [take_left]
    simp [feed, sameLine]

theorem quoted (taken : Taken cs n (.token .str)) :
    ∃ q body, (q = '"' ∨ q = '\'') ∧ cs.take n = q :: body ++ [q] := by
  cases taken with
  | word listed _ => exact absurd rfl (words_fit _ listed).1
  | clear other _ => exact absurd rfl other.1
  | str fits =>
    obtain ⟨q, inner, rest, quote, _, rfl, rfl⟩ := str_eq fits
    exact ⟨q, inner, quote, take_left⟩

theorem feeds (taken : Taken cs n .lineFeeds) : ∀ c ∈ cs.take n, c = '\n' := by
  cases taken with
  | lineFeeds fits => exact (lineFeedRun_eq fits).2

end Lexical.Taken

namespace Lexer

variable {s s' : LexState} {before : Option Char} {pos n : Nat} {cs : List Char} {p : Piece}

theorem next_line (s : LexState) (kind : TokenKind) : (next s kind).line = s.line := by
  simp only [next]
  split <;> split <;> (try split) <;> rfl

namespace Cuts

variable (cuts : Cuts s pos cs p s' n)

include cuts

theorem text : p.text = cs.take n := by
  cases cuts <;> rfl

theorem line : s'.line = s.line + p.text.count '\n' := by
  cases cuts with
  | blanks _ all =>
    have none : (cs.take n).count '\n' = 0 := count_eq_zero.mpr fun feed => absurd (all _ feed) (by decide)
    simp [Piece.text, none]
  | lineFeeds taken =>
    rw [Piece.text, count_eq_length.mpr fun c mem => (taken.feeds c mem).symm]
  | swallowed taken _ | token taken _ _ => simp [Piece.text, next_line, count_eq_zero.mpr taken.sameLine]

theorem fits (some : cs ≠ []) : p.Fits s.line pos := by
  have nonempty : cs.take n ≠ [] := by
    simpa [some] using Nat.ne_of_gt cuts.nonempty
  cases cuts with
  | blanks _ all => exact ⟨nonempty, all⟩
  | lineFeeds taken => exact ⟨nonempty, taken.feeds⟩
  | @swallowed _ kind taken swallows =>
    obtain ⟨m, rfl⟩ := swallows_mark swallows
    exact ⟨m, rfl, taken.mark (TokenKind.mark?_eq_some.mpr rfl)⟩
  | @token _ kind v taken _ value =>
    refine ⟨nonempty, rfl, rfl, ?_⟩
    cases kind <;> first | trivial | (cases value; rfl) | skip
    obtain ⟨q, body, quote, lexeme⟩ := taken.quoted
    cases value
    refine ⟨q, body, quote, lexeme, ?_⟩
    simp [lexeme]

end Cuts

theorem scan_text (complete : (scan s before pos cs).fault = none) :
    (scan s before pos cs).pieces.flatMap Piece.text = cs := by
  fun_induction scan s before pos cs with
  | case1 => rfl
  | case2 => cases complete
  | case3 s before pos c rest p s' n made =>
    rename_i ih
    have cuts := piece_cuts made
    rw [flatMap_cons, ih complete, cuts.text, ← Nat.sub_add_cancel cuts.nonempty]
    exact congrArg (c :: ·) (take_append_drop (n - 1) rest)

theorem scan_fits {done rest : List Piece} (cut : (scan s before pos cs).pieces = done ++ p :: rest) :
    p.Fits (s.line + (done.flatMap Piece.text).count '\n') (pos + (done.flatMap Piece.text).length) := by
  fun_induction scan s before pos cs generalizing done with
  | case1 | case2 => cases done <;> cases cut
  | case3 s before pos c text q s' n made =>
    rename_i ih
    have cuts := piece_cuts made
    cases done with
    | nil =>
      cases cut
      exact cuts.fits (cons_ne_nil c text)
    | cons q' done =>
      obtain rfl := (cons.inj cut).1
      have later : (scan s' _ _ (text.drop (n - 1))).pieces = done ++ p :: rest := (cons.inj cut).2
      -- As a piece follows, the first one lies inside the text.
      have inside : q.text.length = n - 1 + 1 := by
        have more : text.drop (n - 1) ≠ [] := by
          intro nothing
          rw [nothing, scan] at later
          cases done <;> cases later
        rw [cuts.text, length_take, length_cons, Nat.sub_add_cancel cuts.nonempty]
        have := ne_nil_iff_length_pos.mp more
        rw [length_drop] at this
        omega
      have here := ih later
      rw [cuts.line] at here
      simpa only [flatMap_cons, count_append, length_append, inside, Nat.add_assoc] using here

theorem scan_ascends (s : LexState) (before : Option Char) (pos : Nat) (cs : List Char) :
    (scan s before pos cs).tokens.Pairwise (·.pos < ·.pos) := by
  fun_induction scan s before pos cs with
  | case1 | case2 => exact .nil
  | case3 s before pos c text p s' n made =>
    rename_i ih
    rw [Scan.tokens, filterMap_cons]
    cases p with
    | token t =>
      refine pairwise_cons.mpr ⟨fun t' mem => ?_, ih⟩
      have start : t.pos = pos := ((piece_cuts made).fits (cons_ne_nil c text)).2.1
      obtain ⟨p', mem, found⟩ := mem_filterMap.mp mem
      obtain ⟨done, later, cut⟩ := append_of_mem mem
      have fits := scan_fits cut
      cases p' <;> cases found
      have := fits.2.1
      omega
    | swallowed | blanks | lineFeeds => exact ih

/-- The pieces of a text that is read to its end are the text, cut up. Each starts where the pieces before
    it end, in the line after the line feeds before it, and is a token, a run of blanks, a run of line
    feeds, or a swallowed mark; the positions of the tokens ascend. -/
theorem run_covers {cs : List Char} (complete : (run cs).fault = none) :
    (run cs).pieces.flatMap Piece.text = cs ∧
    (∀ done p rest, (run cs).pieces = done ++ p :: rest → ∃ pos, pos = (done.flatMap Piece.text).length ∧
      p.text <+: cs.drop pos ∧ p.Fits (1 + (cs.take pos).count '\n') pos) ∧
    (run cs).tokens.Pairwise (·.pos < ·.pos) := by
  have text : (run cs).pieces.flatMap Piece.text = cs := scan_text complete
  refine ⟨text, fun done p rest cut => ⟨_, rfl, ?_⟩, scan_ascends {} none 0 cs⟩
  have fits := scan_fits cut
  rw [cut, flatMap_append, flatMap_cons] at text
  subst cs
  rw [drop_left, take_left]
  rw [Nat.zero_add] at fits
  exact ⟨prefix_append _ _, fits⟩

/-- The opening mark is swallowed after the sign, and the text in quotes is in the second line. -/
theorem run_covers_continued : (run "a =|BGN|\n  'b'".toList).fault = none ∧
    (run "a =|BGN|\n  'b'".toList).pieces.flatMap Piece.text = "a =|BGN|\n  'b'".toList ∧
    (run "a =|BGN|\n  'b'".toList).tokens.Pairwise (·.pos < ·.pos) := by
  have complete : (run "a =|BGN|\n  'b'".toList).fault = none := Option.isNone_iff_eq_none.mp (by decide +kernel)
  exact ⟨complete, (run_covers complete).1, (run_covers complete).2.2⟩

end Lexer

end PineEngine.Script
