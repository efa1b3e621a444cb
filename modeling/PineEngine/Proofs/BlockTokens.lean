import PineEngine.Proofs.Lexemes

/-! # Block tokens

The lexer passes the marks of the layout on as tokens or swallows them, depending on brackets, on pending
operators and on the opening marks it has swallowed before. What it passes on is a sensible sequence of
blocks all the same: no block is closed that is not open, and what is missing in the end is accounted for
by the closing marks that were read inside brackets (`Lexer.run_blocks`).

The account is kept piece by piece. `Account` is the invariant; `Account.step` follows one piece, and
`Account.run` any number of them.
-/

namespace PineEngine.Script

variable {s : LexState}

namespace LexState

def after (s : LexState) : Piece → LexState
  | .token t => Lexer.next s t.kind
  | .swallowed kind _ => Lexer.next s kind
  | .blanks _ => s
  | .lineFeeds cs => { s with line := s.line + cs.length }

def afterAll (s : LexState) (ps : List Piece) : LexState :=
  ps.foldl after s

/-- Whether the lexer makes a piece in a state: it swallows exactly what it is to swallow. -/
def Makes (s : LexState) : Piece → Prop
  | .token t => Lexer.swallows s t.kind = false
  | .swallowed kind _ => Lexer.swallows s kind = true
  | .blanks _ | .lineFeeds _ => True

def MakesAll : LexState → List Piece → Prop
  | _, [] => True
  | s, p :: ps => s.Makes p ∧ (s.after p).MakesAll ps

/-- How many closing marks are read inside parentheses or brackets. -/
def lostClosings (s : LexState) : List Piece → Nat
  | [] => 0
  | p :: ps =>
    (if p.mark? = some .closing ∧ s.bracketed = true then 1 else 0) + (s.after p).lostClosings ps

theorem lostClosings_cons (s : LexState) (p : Piece) (ps : List Piece) :
    lostClosings s (p :: ps) = lostClosings s [p] + lostClosings (s.after p) ps := rfl

theorem MakesAll.left {ps qs} (makes : s.MakesAll (ps ++ qs)) : s.MakesAll ps := by
  induction ps generalizing s with
  | nil => trivial
  | cons p ps ih => exact ⟨makes.1, ih makes.2⟩

end LexState

def Piece.emitted (kind : TokenKind) (ps : List Piece) : Nat :=
  (ps.filterMap Piece.token?).countP (·.kind == kind)

namespace Piece

theorem emitted_append (kind : TokenKind) (ps qs : List Piece) :
    emitted kind (ps ++ qs) = emitted kind ps + emitted kind qs := by
  rw [emitted, List.filterMap_append, List.countP_append]
  rfl

theorem emitted_token (kind : TokenKind) (t : Token) :
    emitted kind [.token t] = if t.kind = kind then 1 else 0 := by
  by_cases same : t.kind = kind <;> simp [emitted, token?, same]

theorem emitted_silent (kind : TokenKind) {p : Piece} (silent : p.token? = none) :
    emitted kind [p] = 0 := by
  simp [emitted, silent]

end Piece

namespace Lexer

theorem Cuts.makes {s pos cs p s' n} (cuts : Cuts s pos cs p s' n) : s.Makes p ∧ s' = s.after p := by
  cases cuts with
  | blanks | lineFeeds => exact ⟨trivial, rfl⟩
  | swallowed _ fact | token _ fact _ => exact ⟨fact, rfl⟩

theorem scan_makes (s : LexState) (before : Option Char) (pos : Nat) (cs : List Char) :
    s.MakesAll (scan s before pos cs).pieces ∧
      (scan s before pos cs).state = s.afterAll (scan s before pos cs).pieces := by
  fun_induction scan s before pos cs with
  | case1 | case2 => exact ⟨trivial, rfl⟩
  | case3 s before pos c rest p s' n made =>
    rename_i ih
    obtain ⟨makes, rfl⟩ := (piece_cuts made).makes
    exact ⟨⟨makes, ih.1⟩, ih.2⟩

end Lexer

theorem Lexer.next_passed {kind} (passed : swallows s kind = false) : (next s kind).swallowed = s.swallowed := by
  simp only [next, passed, Bool.false_eq_true, if_false]
  split <;> rfl

theorem Lexer.next_opening (swallowed : swallows s .blockBegin = true) :
    (next s .blockBegin).swallowed = s.swallowed + 1 := by
  rw [next, swallowed]
  rfl

theorem Lexer.next_closing (swallowed : swallows s .blockEnd = true) :
    (next s .blockEnd).swallowed = if s.bracketed then s.swallowed else s.swallowed - 1 := by
  rw [next, swallowed]
  simp only [if_true]
  split <;> rfl

theorem Lexer.next_delim (swallowed : swallows s .delim = true) : (next s .delim).swallowed = s.swallowed := by
  simp only [next, swallowed, if_true]

/-- The account after some pieces. By the marks that were read, `depth` blocks are open; `opens` and
    `closes` tokens were passed on for blocks, and `lost` closing marks were read inside brackets. -/
structure Account (depth : Nat) (s : LexState) (opens closes lost : Nat) : Prop where
  swallowed : 0 ≤ s.swallowed
  order : closes ≤ opens
  total : (opens : Int) - closes + s.swallowed = depth + lost

namespace Account

open LexState Piece Lexer

theorem step {depth s opens closes lost p ms} (account : Account depth s opens closes lost)
    (makes : s.Makes p) (marks : Closes depth (p.mark?.toList ++ ms)) :
    ∃ deeper, Closes deeper ms ∧ Account deeper (s.after p) (opens + emitted .blockBegin [p])
      (closes + emitted .blockEnd [p]) (lost + lostClosings s [p]) := by
  obtain ⟨swallowed, order, total⟩ := account
  simp only [lostClosings, Nat.add_zero]
  cases p with
  | blanks | lineFeeds =>
    exact ⟨depth, marks, swallowed, order, total⟩
  | token t =>
    have same : (s.after (.token t)).swallowed = s.swallowed := next_passed makes
    rw [emitted_token, emitted_token]
    cases marked : t.kind.mark? with
    | none =>
      have unmarked : (Piece.token t).mark? = none := marked
      have noOpening : t.kind ≠ .blockBegin := fun kind => by rw [kind] at marked; cases marked
      have noClosing : t.kind ≠ .blockEnd := fun kind => by rw [kind] at marked; cases marked
      rw [unmarked] at marks
      simp only [unmarked, noOpening, noClosing, reduceCtorEq, false_and, if_false, Nat.add_zero]
      exact ⟨depth, marks, by omega, order, by omega⟩
    | some m =>
      have read : (Piece.token t).mark? = some m := marked
      have kind : t.kind = m.kind := TokenKind.mark?_eq_some.mp marked
      have passed : swallows s m.kind = false := kind ▸ makes
      rw [read] at marks ⊢
      rw [kind]
      cases m with
      | opening =>
        refine ⟨depth + 1, marks, by omega, ?_, ?_⟩ <;> simp [Mark.kind] <;> omega
      | delim =>
        refine ⟨depth, marks, by omega, ?_, ?_⟩ <;> simp [Mark.kind] <;> omega
      | closing =>
        -- It is passed on only outside brackets and when no swallowed mark is open.
        have plain : s.bracketed = false ∧ s.swallowed = 0 := by
          simpa [Mark.kind, swallows] using passed
        cases depth with
        | zero => exact marks.elim
        | succ depth =>
          refine ⟨depth, marks, by omega, ?_, ?_⟩ <;> simp [Mark.kind, plain.1] <;> omega
  | swallowed kind cs =>
    obtain ⟨m, rfl⟩ := swallows_mark makes
    have read : (Piece.swallowed m.kind cs).mark? = some m := TokenKind.mark?_eq_some.mpr rfl
    rw [read] at marks ⊢
    rw [emitted_silent _ rfl, emitted_silent _ rfl]
    cases m with
    | opening =>
      have more : (s.after (.swallowed Mark.opening.kind cs)).swallowed = s.swallowed + 1 :=
        next_opening makes
      refine ⟨depth + 1, marks, by omega, order, ?_⟩
      simp
      omega
    | delim =>
      have same : (s.after (.swallowed Mark.delim.kind cs)).swallowed = s.swallowed := next_delim makes
      refine ⟨depth, marks, by omega, order, ?_⟩
      simp
      omega
    | closing =>
      have fewer : (s.after (.swallowed Mark.closing.kind cs)).swallowed =
          if s.bracketed then s.swallowed else s.swallowed - 1 := next_closing makes
      have some : s.bracketed = true ∨ s.swallowed ≠ 0 := by
        simpa [LexState.Makes, Mark.kind, swallows] using makes
      cases depth with
      | zero => exact marks.elim
      | succ depth =>
        by_cases inside : s.bracketed = true
        · rw [if_pos inside] at fewer
          refine ⟨depth, marks, by omega, order, ?_⟩
          simp [inside]
          omega
        · rw [if_neg inside] at fewer
          have pos : 0 < s.swallowed := by
            have := some.resolve_left inside
            omega
          refine ⟨depth, marks, by omega, order, ?_⟩
          simp [inside]
          omega

theorem run {depth s opens closes lost ps ms} (account : Account depth s opens closes lost)
    (makes : s.MakesAll ps) (marks : Closes depth (ps.filterMap mark? ++ ms)) :
    ∃ deeper, Closes deeper ms ∧ Account deeper (s.afterAll ps) (opens + emitted .blockBegin ps)
      (closes + emitted .blockEnd ps) (lost + lostClosings s ps) := by
  induction ps generalizing depth s opens closes lost with
  | nil => exact ⟨depth, marks, account⟩
  | cons p ps ih =>
    have first : Closes depth (p.mark?.toList ++ (ps.filterMap mark? ++ ms)) := by
      rw [List.filterMap_cons] at marks
      cases found : p.mark? <;> rw [found] at marks <;> exact marks
    obtain ⟨next, marks, account⟩ := account.step makes.1 first
    obtain ⟨deeper, marks, account⟩ := ih account makes.2 marks
    refine ⟨deeper, marks, ?_⟩
    rw [lostClosings_cons, ← List.singleton_append, emitted_append, emitted_append,
      ← Nat.add_assoc, ← Nat.add_assoc, ← Nat.add_assoc]
    exact account

end Account

open LexState Piece in
/-- In a text without bars that the lexer reads to its end, no block is closed that is not open, at any
    point of the text; no swallowed mark is closed that is not open either. At the end the blocks still
    open and the swallowed marks still open are as many as the closing marks read inside brackets. So
    the tokens are balanced, with no swallowed mark open, exactly when there was no such mark. -/
theorem Lexer.run_blocks {code : String} {cs : List Char} (noBar : '|' ∉ code.toList)
    (prepared : Layout.prepare? code = some cs) (complete : (run cs).fault = none) :
    (∀ read, read <+: (run cs).pieces →
      emitted .blockEnd read ≤ emitted .blockBegin read ∧ 0 ≤ (afterAll {} read).swallowed) ∧
    (run cs).state = afterAll {} (run cs).pieces ∧
    (emitted .blockBegin (run cs).pieces : Int) - emitted .blockEnd (run cs).pieces
      + (run cs).state.swallowed = lostClosings {} (run cs).pieces ∧
    (emitted .blockBegin (run cs).pieces = emitted .blockEnd (run cs).pieces ∧
        (run cs).state.swallowed = 0 ↔
      lostClosings {} (run cs).pieces = 0) := by
  obtain ⟨ms, carried, closes⟩ := Layout.prepare?_carries noBar prepared
  have start : Account 0 {} 0 0 0 := ⟨Int.le_refl 0, Nat.le_refl 0, rfl⟩
  have reads : (run cs).pieces.filterMap mark? = ms := scan_reads carried complete
  obtain ⟨makes, state⟩ : MakesAll {} (run cs).pieces ∧ (run cs).state = afterAll {} (run cs).pieces :=
    scan_makes {} none 0 cs
  have along : ∀ read rest, read ++ rest = (run cs).pieces →
      ∃ depth, Closes depth (rest.filterMap mark?) ∧
        Account depth (afterAll {} read) (emitted .blockBegin read) (emitted .blockEnd read)
          (lostClosings {} read) := by
    intro read rest split
    rw [← split] at makes reads
    rw [← reads, List.filterMap_append] at closes
    simpa only [Nat.zero_add] using start.run makes.left closes
  obtain ⟨depth, closed, final⟩ := along _ [] (List.append_nil _)
  subst depth
  obtain ⟨swallowed, order, total⟩ := final
  rw [state]
  refine ⟨fun read ⟨rest, split⟩ => ?_, rfl, by omega, by omega⟩
  obtain ⟨_, _, account⟩ := along read rest split
  exact ⟨account.order, account.swallowed⟩

/-- A block that opens and closes inside parentheses loses its closing mark: with no block passed on, the
    lexer ends with a swallowed mark open. -/
theorem Lexer.run_blocks_parentheses :
    '|' ∉ "(\n    a\n)".toList ∧
    Layout.prepare? "(\n    a\n)" = some "(|BGN|\n    a|DLM||END|\n)|DLM|".toList ∧
    (run "(|BGN|\n    a|DLM||END|\n)|DLM|".toList).fault = none ∧
    (run "(|BGN|\n    a|DLM||END|\n)|DLM|".toList).state.swallowed = 1 := by
  have noBar : '|' ∉ "(\n    a\n)".toList := by decide
  have prepared : Layout.prepare? "(\n    a\n)" = some "(|BGN|\n    a|DLM||END|\n)|DLM|".toList := by
    decide +kernel
  have complete : (run "(|BGN|\n    a|DLM||END|\n)|DLM|".toList).fault = none :=
    Option.isNone_iff_eq_none.mp (by decide +kernel)
  have balance := (run_blocks noBar prepared complete).2.2.1
  have counted :
      Piece.emitted .blockBegin (run "(|BGN|\n    a|DLM||END|\n)|DLM|".toList).pieces = 0 ∧
      Piece.emitted .blockEnd (run "(|BGN|\n    a|DLM||END|\n)|DLM|".toList).pieces = 0 ∧
      LexState.lostClosings {} (run "(|BGN|\n    a|DLM||END|\n)|DLM|".toList).pieces = 1 := by
    decide +kernel
  obtain ⟨opens, closes, lost⟩ := counted
  exact ⟨noBar, prepared, complete, by omega⟩

end PineEngine.Script
