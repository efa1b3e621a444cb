import PineEngine.Proofs.Marks
import PineEngine.Script.Lexer

/-! # Lexemes

A rule of the lexer takes at least one character. In a text that carries marks, a rule takes either a whole
mark or characters none of which belongs to a mark (`Lexer.Cuts.reads`). So the lexer reads the marks of
such a text in their order and nothing else as a mark (`Lexer.scan_reads`).
-/

namespace PineEngine.Script

open List Option

def TokenKind.mark? : TokenKind → Option Mark
  | .blockBegin => some .opening
  | .blockEnd => some .closing
  | .delim => some .delim
  | _ => none

def Mark.kind : Mark → TokenKind
  | .opening => .blockBegin
  | .closing => .blockEnd
  | .delim => .delim

theorem TokenKind.mark?_eq_some {kind : TokenKind} {m} : kind.mark? = some m ↔ kind = m.kind := by
  constructor
  · intro marked
    cases kind <;> cases marked <;> rfl
  · rintro rfl
    cases m <;> rfl

def Lexical.mark? : Lexical → Option Mark
  | .token kind => kind.mark?
  | .lineFeeds => none

def Piece.mark? : Piece → Option Mark
  | .token t => t.kind.mark?
  | .swallowed kind _ => kind.mark?
  | .blanks _ | .lineFeeds _ => none

namespace Lexical

open Text

variable {cs : List Char} {n : Nat} {before : Option Char} {rule : Lexical} {ms : List Mark}

/-- A character that is no bar and ends no line. -/
def isPlain (c : Char) : Bool :=
  c != '|' && c != '\n'

/-- The first `n` characters are some, and all of them are plain. -/
structure Clear (n : Nat) (cs : List Char) : Prop where
  some : 0 < n
  plain : (cs.take n).all isPlain

theorem plain_add {m : Nat} (first : (cs.take m).all isPlain) (second : ((cs.drop m).take n).all isPlain) :
    (cs.take (m + n)).all isPlain := by
  rw [take_add, all_append, first, second]
  rfl

theorem takeWhile_plain {p : Char → Bool} (bar : p '|' = false) (feed : p '\n' = false) (cs : List Char) :
    (cs.take (cs.takeWhile p).length).all isPlain := by
  rw [← prefix_iff_eq_take.mp ( takeWhile_prefix p), List.all_eq_true]
  intro c mem
  have passed := all_eq_true.mp all_takeWhile c mem
  simp only [isPlain, Bool.and_eq_true, bne_iff_ne]
  constructor <;> rintro rfl <;> simp_all

theorem digits_plain (cs : List Char) : (cs.take (digitRun cs)).all isPlain :=
  takeWhile_plain (by decide) (by decide) cs

theorem fixed_eq {word : String} (fits : fixed word cs = some n) : n = word.toList.length ∧ cs.take n = word.toList := by
  simp only [fixed] at fits
  split at fits <;> cases fits
  next inFront => exact ⟨rfl, (prefix_iff_eq_take.mp ( isPrefixOf_iff_prefix.mp inFront)).symm⟩

theorem keyword_fixed {word : String} (fits : keyword word before cs = some n) : fixed word cs = some n := by
  simp only [keyword] at fits
  split at fits
  · cases fits
  · obtain ⟨m, found, same⟩ := bind_eq_some_iff.mp fits
    split at same <;> cases same
    exact found

theorem exponent_clear (fits : exponent cs = some n) : Clear n cs := by
  cases cs with
  | nil => cases fits
  | cons e rest =>
    simp only [exponent] at fits
    split at fits
    next letter =>
      have first : isPlain e := by
        simp only [Bool.or_eq_true, beq_iff_eq] at letter
        obtain rfl | rfl := letter <;> decide
      -- With a sign the digits start one place later.
      split at fits <;> simp only at fits <;> split at fits <;> cases fits
      · exact ⟨by omega, plain_add (m := 2) (by simpa [isPlain] using first) (digits_plain _)⟩
      · exact ⟨by omega, plain_add (m := 2) (by simpa [isPlain] using first) (digits_plain _)⟩
      · exact ⟨by omega, plain_add (m := 1) (by simpa using first) (digits_plain _)⟩
    next => cases fits

theorem fraction_plain (cs : List Char) :
    (cs.take (digitRun cs + (exponent (cs.drop (digitRun cs))).getD 0)).all isPlain := by
  refine plain_add (digits_plain cs) ?_
  cases found : exponent (cs.drop (digitRun cs)) with
  | none => simp
  | some n => exact (exponent_clear found).plain

theorem float_clear (fits : float cs = some n) : Clear n cs := by
  simp only [float] at fits
  split at fits
  next rest =>
    obtain ⟨m, found, rfl⟩ := map_eq_some_iff.mp fits
    split at found <;> cases found
    exact ⟨by omega, plain_add (m := 1) rfl (fraction_plain rest)⟩
  next =>
    split at fits
    next => exact exponent_clear fits
    next digits =>
      split at fits
      next rest after =>
        cases fits
        refine ⟨by omega, ?_⟩
        rw [Nat.add_assoc]
        refine plain_add (digits_plain cs) ?_
        rw [after]
        refine plain_add (m := 1) rfl ?_
        split
        · simp
        · exact fraction_plain rest
      next => cases fits

theorem int_clear (fits : int cs = some n) : Clear n cs := by
  simp only [int] at fits
  split at fits
  next => cases fits
  next digits =>
    cases fits
    exact ⟨Nat.pos_of_ne_zero (by simpa using digits), digits_plain cs⟩

theorem color_clear (fits : color cs = some n) : Clear n cs := by
  simp only [color] at fits
  split at fits
  next rest =>
    have digits := takeWhile_plain (p := isColorDigit) (by decide) (by decide) (rest.take 8)
    generalize (rest.take 8).takeWhile isColorDigit = run at digits fits
    split at fits
    · cases fits
    next six =>
      -- Six digits or eight are taken of the run, and the run is plain.
      have part (k : Nat) (fewer : k ≤ run.length) (most : k ≤ 8) : (('#' :: rest).take (1 + k)).all isPlain := by
        refine plain_add (m := 1) rfl (all_eq_true.mpr fun c mem => all_eq_true.mp digits c ?_)
        rw [take_take]
        refine mem_of_mem_take (i := k) ?_
        rw [take_take, show min k (min run.length 8) = k by omega]
        exact mem
      split at fits <;> cases fits
      · exact ⟨by omega, part 6 (by omega) (by omega)⟩
      · exact ⟨by omega, part 8 (by omega) (by omega)⟩
  next => cases fits

theorem nameTail_plain {fuel : Nat} (fits : nameTail fuel cs = some n) : (cs.take n).all isPlain := by
  induction fuel generalizing cs n with
  | zero => cases fits
  | succ fuel ih =>
    simp only [nameTail] at fits
    generalize leads : (if cs.head? == some '.' then 1 else 0) = lead at fits
    have point : (cs.take lead).all isPlain := by
      split at leads
      next head =>
        subst leads
        cases cs with
        | nil => rfl
        | cons c cs => simp_all [isPlain]
      next => subst leads; rfl
    have word : (cs.take (lead + ((cs.drop lead).takeWhile isWord).length)).all isPlain :=
      plain_add point (takeWhile_plain (by decide) (by decide) _)
    split at fits
    next m further =>
      cases fits
      split at further
      · cases further
      · split at further
        next rest after =>
          obtain ⟨k, found, rfl⟩ := map_eq_some_iff.mp further
          rw [Nat.add_assoc]
          refine plain_add word ?_
          rw [after]
          exact plain_add (m := 1) rfl (ih found)
        next => cases further
    next =>
      split at fits
      next alone =>
        cases fits
        simp only [Bool.and_eq_true, beq_iff_eq] at alone
        simpa only [alone.1, Nat.zero_add] using word
      next => cases fits

theorem name_clear (fits : name cs = some n) : Clear n cs := by
  simp only [name] at fits
  split at fits
  next c rest =>
    split at fits
    next letter =>
      cases fits
      refine ⟨by omega, plain_add (m := 1) ?_ ?_⟩
      · suffices isPlain c by simpa using this
        simp only [isPlain, Bool.and_eq_true, bne_iff_ne]
        constructor <;> rintro rfl <;> exact absurd letter (by decide)
      · cases found : nameTail rest.length rest with
        | none => rfl
        | some m => exact nameTail_plain found
    next => cases fits
  next => cases fits

/-- A text in quotes: the quote, what stands between in the same line, and the quote again. -/
theorem str_eq (fits : str cs = some n) : ∃ q inner rest, (q = '"' ∨ q = '\'') ∧ (q ∉ inner ∧ '\n' ∉ inner) ∧
    cs = (q :: inner ++ [q]) ++ rest ∧ n = (q :: inner ++ [q]).length := by
  -- The two kinds of quote differ in nothing but the character.
  have body {q : Char} {rest : List Char} (quote : q = '"' ∨ q = '\'')
      (fits : (if (rest.drop (rest.takeWhile fun c => c != q && c != '\n').length).head? == some q
        then some ((rest.takeWhile fun c => c != q && c != '\n').length + 2) else none) = some n) :
      ∃ q' inner tail, (q' = '"' ∨ q' = '\'') ∧ (q' ∉ inner ∧ '\n' ∉ inner) ∧ q :: rest = (q' :: inner ++ [q']) ++ tail ∧
        n = (q' :: inner ++ [q']).length := by
    split at fits <;> cases fits
    next closed =>
      obtain ⟨tail, found⟩ := head?_eq_some_iff.mp (eq_of_beq closed)
      refine ⟨q, rest.takeWhile fun c => c != q && c != '\n', tail, quote, ?_, ?_, by simp⟩
      · constructor <;> intro mem <;> simpa using all_eq_true.mp all_takeWhile _ mem
      · rw [append_assoc, singleton_append, ← found, cons_append, prefix_iff_eq_append.mp ( takeWhile_prefix _)]
  simp only [str] at fits
  split at fits
  · exact body (.inl rfl) fits
  · exact body (.inr rfl) fits
  · cases fits

theorem quoted_noBar {q : Char} {inner rest : List Char} (carried : Carries (inner ++ q :: rest) ms)
    (quote : q = '"' ∨ q = '\'') (sameLine : '\n' ∉ inner) : '|' ∉ inner := by
  intro bar
  obtain ⟨front, after, rfl, noBar⟩ := eq_append_cons_of_mem bar
  have fromBar : Carries ('|' :: after ++ q :: rest) ms := by
    simpa using carried.drop front.length (by simpa using noBar)
  have noFeed : ∀ c ∈ '|' :: after, (c != '\n') = true := by
    intro c inside
    rw [bne_iff_ne]
    rintro rfl
    exact sameLine (mem_append_right _ inside)
  have noQuote := fromBar.noQuote rfl quote
  rw [takeWhile_append_of_pos noFeed, mem_append, not_or] at noQuote
  have notFeed : (q != '\n') = true := by rcases quote with rfl | rfl <;> decide
  exact noQuote.2 (by simp [notFeed])

theorem lineFeedRun_eq (fits : lineFeedRun cs = some n) : 0 < n ∧ ∀ c ∈ cs.take n, c = '\n' := by
  simp only [lineFeedRun] at fits
  split at fits <;> cases fits
  next feeds =>
    refine ⟨Nat.pos_of_ne_zero (by simpa using feeds), ?_⟩
    rw [← prefix_iff_eq_take.mp ( takeWhile_prefix _)]
    intro c mem
    simpa using all_eq_true.mp all_takeWhile c mem

/-- How a rule takes the first `n` characters of a text. -/
inductive Taken (cs : List Char) (n : Nat) : Lexical → Prop where
  | word {w : String} {kind : TokenKind} (listed : (w, kind) ∈ symbols ++ keywords ++ brackets)
    (fits : fixed w cs = some n) : Taken cs n (.token kind)
  | clear {kind : TokenKind} (other : kind ≠ .str ∧ kind.mark? = none) (clear : Clear n cs) : Taken cs n (.token kind)
  | str (fits : str cs = some n) : Taken cs n (.token .str)
  | lineFeeds (fits : lineFeedRun cs = some n) : Taken cs n .lineFeeds

theorem first?_taken (found : first? before cs = some (rule, n)) : Taken cs n rule := by
  have listed {table : List (String × TokenKind)} {fits : String → Option Nat}
      (part : table ⊆ symbols ++ keywords ++ brackets) (whole : ∀ w, fits w = some n → fixed w cs = some n)
      (found : table.findSome? (fun e => (fits e.1).map (Lexical.token e.2, ·)) = some (rule, n)) : Taken cs n rule := by
    obtain ⟨⟨w, kind⟩, mem, taken⟩ := exists_of_findSome?_eq_some found
    obtain ⟨k, fits, same⟩ := map_eq_some_iff.mp taken
    cases same
    exact .word (part mem) (whole w fits)
  simp only [first?, orElse_eq_orElse, orElse_eq_or, or_eq_some_iff, map_eq_some_iff] at found
  rcases found with found | ⟨_, found | ⟨_, found | ⟨_, found⟩⟩⟩
  · exact listed (by simp) (fun _ => id) found
  · exact listed (by simp) (fun _ => keyword_fixed) found
  · exact listed (by simp) (fun _ => id) found
  · rcases found with ⟨_, fits, same⟩ | ⟨_, ⟨_, fits, same⟩ | ⟨_, ⟨_, fits, same⟩ | ⟨_, ⟨_, fits, same⟩ |
      ⟨_, ⟨_, fits, same⟩ | ⟨_, ⟨_, fits, same⟩ | ⟨_, _, fits, same⟩⟩⟩⟩⟩⟩ <;> cases same
    · exact .clear (by decide) (float_clear fits)
    · exact .clear (by decide) (int_clear fits)
    · refine .clear (by decide) ?_
      rcases fits with fits | ⟨_, fits⟩ <;> obtain ⟨rfl, taken⟩ := fixed_eq fits
      · exact ⟨by decide, by rw [taken]; decide⟩
      · exact ⟨by decide, by rw [taken]; decide⟩
    · exact .str fits
    · exact .clear (by decide) (color_clear fits)
    · exact .clear (by decide) (name_clear fits)
    · exact .lineFeeds fits

/-- No symbol or keyword is empty or goes beyond its line, and a bar is in the marks only. -/
theorem words_fit : ∀ e ∈ symbols ++ keywords ++ brackets, e.2 ≠ .str ∧ e.1.toList ≠ [] ∧ '\n' ∉ e.1.toList ∧
    (e.2.mark?.map Mark.text = some e.1.toList ∨ e.2.mark? = none ∧ '|' ∉ e.1.toList) := by
  decide

namespace Taken

variable (taken : Taken cs n rule)

include taken

theorem pos : 0 < n := by
  cases taken with
  | word listed fits =>
    rw [(fixed_eq fits).1]
    exact length_pos_iff.mpr (words_fit _ listed).2.1
  | clear _ clear => exact clear.some
  | str fits =>
    obtain ⟨_, _, _, _, _, _, rfl⟩ := str_eq fits
    exact Nat.succ_pos _
  | lineFeeds fits => exact (lineFeedRun_eq fits).1

theorem mark {m : Mark} (marked : rule.mark? = some m) : cs.take n = m.text := by
  cases taken with
  | word listed fits =>
    obtain text | ⟨none, _⟩ := (words_fit _ listed).2.2.2
    · rw [show TokenKind.mark? _ = some m from marked] at text
      rw [(fixed_eq fits).2]
      exact (Option.some.inj text).symm
    · cases none.symm.trans marked
  | clear other _ => cases other.2.symm.trans marked
  | str | lineFeeds => cases marked

theorem noBar (carried : Carries cs ms) (noMark : rule.mark? = none) : '|' ∉ cs.take n := by
  cases taken with
  | word listed fits =>
    obtain text | ⟨_, noBar⟩ := (words_fit _ listed).2.2.2
    · rw [show TokenKind.mark? _ = none from noMark] at text
      cases text
    · rwa [(fixed_eq fits).2]
  | clear _ clear => exact fun bar => absurd (all_eq_true.mp clear.plain _ bar) (by decide)
  | str fits =>
    obtain ⟨q, inner, rest, quote, ⟨_, sameLine⟩, rfl, rfl⟩ := str_eq fits
    have bar : '|' ≠ q := by rcases quote with rfl | rfl <;> decide
    have after : Carries (inner ++ q :: rest) ms := by simpa using carried.drop 1 (by simpa using bar)
    have noBar := quoted_noBar after quote sameLine
    rw [take_left]
    simp [bar, noBar]
  | lineFeeds fits => exact fun bar => absurd ((lineFeedRun_eq fits).2 _ bar) (by decide)

theorem reads (carried : Carries cs ms) : ∃ later, ms = rule.mark?.toList ++ later ∧ Carries (cs.drop n) later := by
  cases marked : rule.mark? with
  | none => exact ⟨ms, rfl, carried.drop n (taken.noBar carried marked)⟩
  | some m =>
    rw [← take_append_drop n cs, taken.mark marked] at carried
    exact carried.of_mark

end Taken

end Lexical

namespace Lexer

/-- The piece that the lexer makes of the first `n` characters of a text, and the state after it. -/
inductive Cuts (s : LexState) (pos : Nat) (cs : List Char) : Piece → LexState → Nat → Prop where
  | blanks {n : Nat} (some : 0 < n) (all : ∀ c ∈ cs.take n, c = ' ' ∨ c = '\t') : Cuts s pos cs (.blanks (cs.take n)) s n
  | lineFeeds {n : Nat} (taken : Lexical.Taken cs n .lineFeeds) :
    Cuts s pos cs (.lineFeeds (cs.take n)) { s with line := s.line + (cs.take n).length } n
  | swallowed {n : Nat} {kind : TokenKind} (taken : Lexical.Taken cs n (.token kind)) (swallows : swallows s kind = true) :
    Cuts s pos cs (.swallowed kind (cs.take n)) (next s kind) n
  | token {n : Nat} {kind : TokenKind} {v : Literal} (taken : Lexical.Taken cs n (.token kind))
    (passes : swallows s kind = false) (value : valueOf kind (cs.take n) = .ok v) :
    Cuts s pos cs (.token ⟨kind, v, s.line, pos, cs.take n⟩) (next s kind) n

variable {s s' : LexState} {before : Option Char} {pos n : Nat} {c : Char} {rest : List Char} {p : Piece}

theorem swallows_mark {kind : TokenKind} (swallowed : swallows s kind = true) : ∃ m, kind = Mark.kind m := by
  cases kind <;> first | exact ⟨.opening, rfl⟩ | exact ⟨.closing, rfl⟩ | exact ⟨.delim, rfl⟩ | cases swallowed

theorem piece_cuts (made : piece s before pos c rest = .ok (p, s', n)) : Cuts s pos (c :: rest) p s' n := by
  simp only [piece] at made
  split at made
  next blank =>
    cases made
    refine .blanks (Nat.succ_pos _) ?_
    rw [take_succ_cons, ← prefix_iff_eq_take.mp ( takeWhile_prefix _)]
    refine forall_mem_cons.mpr ⟨by simpa using blank, fun d mem => by simpa using all_eq_true.mp all_takeWhile d mem⟩
  next =>
    split at made
    next => cases made
    next rule k found =>
      have taken := Lexical.first?_taken found
      cases rule with
      | lineFeeds =>
        cases made
        exact .lineFeeds taken
      | token kind =>
        simp only [cut] at made
        split at made
        next swallows =>
          cases made
          exact .swallowed taken swallows
        next passes =>
          cases value : valueOf kind ((c :: rest).take k) with
          | error e =>
            rw [value] at made
            cases made
          | ok v =>
            rw [value] at made
            cases made
            exact .token taken (Bool.eq_false_iff.mpr passes) value

theorem Cuts.reads {cs : List Char} {ms : List Mark} (carried : Carries cs ms) (cuts : Cuts s pos cs p s' n) :
    ∃ later, ms = p.mark?.toList ++ later ∧ Carries (cs.drop n) later := by
  cases cuts with
  | blanks _ all => exact ⟨ms, rfl, carried.drop n fun bar => absurd (all _ bar) (by decide)⟩
  | lineFeeds taken | swallowed taken _ | token taken _ _ => exact taken.reads carried

theorem Cuts.nonempty {cs : List Char} (cuts : Cuts s pos cs p s' n) : 0 < n := by
  cases cuts with
  | blanks some _ => exact some
  | lineFeeds taken | swallowed taken _ | token taken _ _ => exact taken.pos

theorem scan_reads {cs : List Char} {ms : List Mark} (carried : Carries cs ms)
    (complete : (scan s before pos cs).fault = none) : (scan s before pos cs).pieces.filterMap Piece.mark? = ms := by
  fun_induction scan s before pos cs generalizing ms with
  | case1 => exact carried.of_nil.symm
  | case2 => cases complete
  | case3 s before pos c rest p s' n made =>
    rename_i ih
    obtain ⟨later, rfl, after⟩ := (piece_cuts made).reads carried
    have continued : Carries (rest.drop (n - 1)) later := by
      rwa [← Nat.sub_add_cancel (piece_cuts made).nonempty, drop_succ_cons] at after
    have read := ih continued complete
    rw [filterMap_cons]
    cases p.mark? with
    | none => exact read
    | some m => exact congrArg (m :: ·) read

end Lexer

end PineEngine.Script
