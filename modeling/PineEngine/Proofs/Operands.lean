import Mathlib.Data.List.Basic
import PineEngine.Proofs.Columns
import PineEngine.Proofs.Spelling

/-! # Reading operands

A level of precedence that finds nothing of its own gives what the next one
gives (`Precedence.parse_of_next`), so for each kind of node it is enough to look at its own level
(`Tree.ParsesOwn.parses`). What follows an expression must not go on with it (`Precedence.Ends`); between operands that
is so because an operand is enclosed where it is looser than its place.

Sums and products are read from the left: their left operand is read up to its last operator, and then the parser goes
on (`Tree.Continues`).
-/

namespace PineEngine.Script

open Script.Parser Script.Tree List

variable {atEnd : Fault} {fuel : Nat} {ts rest : List Token} {t a b : Tree} {k : TokenKind} {u : Token} {op : BinaryOp}

theorem split_at_sign {p q : List Symbol} (spelled : ts.map Token.symbol = p ++ .sign k :: q) :
    ∃ us u vs, ts = us ++ u :: vs ∧ us.map Token.symbol = p ∧ u.kind = k ∧ vs.map Token.symbol = q := by
  obtain ⟨us, more, rfl, before, spelled⟩ := map_eq_append_iff.mp spelled
  obtain ⟨u, vs, rfl, told, after⟩ := map_eq_cons_iff.mp spelled
  exact ⟨us, u, vs, rfl, before, Token.of_symbol_sign told, after⟩

theorem split_row {p : List Symbol} {ps : List (List Symbol)}
    (spelled : ts.map Token.symbol = [.sign k].intercalate (p :: ps)) :
    (ps = [] ∧ ts.map Token.symbol = p) ∨ (ps ≠ [] ∧ ∃ us u vs, ts = us ++ u :: vs ∧ us.map Token.symbol = p ∧
      u.kind = k ∧ vs.map Token.symbol = [.sign k].intercalate ps) := by
  cases ps with
  | nil =>
    rw [intercalate_singleton] at spelled
    exact .inl ⟨rfl, spelled⟩
  | cons q ps =>
    exact .inr ⟨by simp, split_at_sign spelled⟩

namespace Precedence

variable {l k : Precedence} {join : Line → Tree → Tree → Tree}

theorem fuel_of_parse (parsed : expression atEnd l fuel ts = .ok (t, rest)) : ∃ n, fuel = n + 1 := by
  cases fuel with
  | zero => simp [expression] at parsed
  | succ n => exact ⟨n, rfl⟩

/-- What follows does not go on with an expression of this level. -/
def Ends (l : Precedence) (rest : List Token) : Prop :=
  ∀ u ∈ rest.head?, ∀ k ∈ u.kind.joins?, k.rank < l.rank

theorem Ends.mono (ends : l.Ends rest) (tighter : l.rank ≤ k.rank) : k.Ends rest :=
  fun u first j joins => Nat.lt_of_lt_of_le (ends u first j joins) tighter

theorem Ends.not_joins (ends : l.Ends (u :: rest)) : u.kind.joins? ≠ some l :=
  fun joins => Nat.lt_irrefl _ (ends u rfl l joins)

theorem ends_of_joins (joins : u.kind.joins? = some k) (looser : k.rank < l.rank) : l.Ends (u :: rest) := by
  intro v first j found
  cases first
  rw [joins] at found
  cases found
  exact looser

theorem ends_of_closing (closing : u.kind.joins? = none) : l.Ends (u :: rest) := by
  intro v first j found
  cases first
  rw [closing] at found
  cases found

theorem joining?_operator (between : op ≠ .index) : joining? op.level op.kind = some fun line => .binary line op := by
  cases op <;> first | rfl | exact absurd rfl between

theorem joins_of_joining? {kind : TokenKind} (found : joining? l kind = some join) :
    kind.joins? = some l := by
  cases l <;> cases kind <;> first | rfl | cases found

theorem Ends.not_joining (ends : l.Ends (u :: rest)) : joining? l u.kind = none := by
  cases found : joining? l u.kind with
  | none => rfl
  | some join => exact absurd (joins_of_joining? found) ends.not_joins

def between (l : Precedence) : Bool :=
  1 ≤ l.rank && l.rank ≤ 6

theorem parse_between (between : l.between) : expression atEnd l (fuel + 1) ts =
    (expression atEnd l.next fuel ts >>= fun r => further atEnd l fuel r.1 r.2) := by
  cases l <;> first | rfl | cases between

theorem further_end (ends : l.Ends rest) : further atEnd l (fuel + 1) t rest = .ok (t, rest) := by
  cases rest with
  | nil => rfl
  | cons u rest => simp only [further, ends.not_joining]

theorem further_join (sign : joining? l u.kind = some join)
    (parsed : expression atEnd l.next fuel ts = .ok (b, rest)) : further atEnd l (fuel + 1) a (u :: ts) =
      if l == .equality || l == .order then .ok (join (some u.line) a b, rest)
      else further atEnd l fuel (join (some u.line) a b) rest := by
  simp only [further, sign, parsed, ok_bind]
  rfl

def rowSign : Precedence → TokenKind
  | all => .and
  | _ => .or

def row : Precedence → Line → List Tree → Tree
  | all => .allOf
  | _ => .anyOf

def rowItems : Precedence → Tree → List Tree
  | any, .anyOf _ items => items
  | all, .allOf _ items => items
  | _, t => [t]

theorem erased_row (line : Line) (items : List Tree) : (l.row line items).erased = l.row none (erasedEach items) := by
  cases l <;> rfl

theorem rowItems_of_other (other : t.level ≠ l) : l.rowItems t = [t] := by
  cases l <;> cases t <;> first | rfl | exact absurd rfl other

section Rows

variable (conditions : l = .any ∨ l = .all)
include conditions

theorem joins_rowSign : l.rowSign.joins? = some l := by
  obtain rfl | rfl := conditions <;> rfl

theorem rowItems_row (line : Line) (items : List Tree) : l.rowItems (l.row line items) = items := by
  obtain rfl | rfl := conditions <;> rfl

theorem rowFurther_join (t : Tree) (sign : u.kind = l.rowSign) (parsed : expression atEnd l.next fuel ts = .ok (b, rest)) :
    ∃ line, further atEnd l (fuel + 1) t (u :: ts) = further atEnd l fuel (l.row line (l.rowItems t ++ [b])) rest := by
  obtain rfl | rfl := conditions
  · rw [further_join (show joining? .any u.kind = some joinAny by rw [sign]; rfl) parsed]
    cases t <;> exact ⟨_, rfl⟩
  · rw [further_join (show joining? .all u.kind = some joinAll by rw [sign]; rfl) parsed]
    cases t <;> exact ⟨_, rfl⟩

end Rows

theorem indexed_starts (parsed : expression atEnd .indexed fuel ts = .ok (t, rest)) :
    ∃ u us, ts = u :: us ∧ signOp? u.kind = none := by
  obtain ⟨n, rfl⟩ := fuel_of_parse parsed
  obtain ⟨r, base, _⟩ := bind_eq_ok parsed
  obtain ⟨n, rfl⟩ := fuel_of_parse base
  cases ts with
  | nil => simp [expression] at base
  | cons u us =>
    refine ⟨u, us, rfl, ?_⟩
    simp only [expression] at base
    cases kind : u.kind <;> first | rfl | simp [kind, unexpected] at base

theorem parse_of_next (inner : l ≠ .atom) (ends : l.Ends rest) (parsed : expression atEnd l.next fuel ts = .ok (t, rest)) :
    expression atEnd l (fuel + 1) ts = .ok (t, rest) := by
  obtain ⟨n, rfl⟩ := fuel_of_parse parsed
  cases l with
  | atom => exact absurd rfl inner
  | choice | indexed =>
    rw [expression]
    simp only [next] at parsed
    simp only [parsed, ok_bind]
    cases rest with
    | nil => rfl
    | cons u rest =>
      have other := ends.not_joins
      dsimp only
      split
      next same =>
        rw [eq_of_beq same] at other
        exact (other rfl).elim
      next => rfl
  | signed =>
    simp only [next] at parsed
    obtain ⟨u, us, rfl, none⟩ := indexed_starts parsed
    rw [expression]
    simp only [none, parsed]
  | _ =>
    rw [parse_between rfl, parsed, ok_bind]
    exact further_end ends

/-- A level reads a tree, but for lines, and leaves the rest. -/
def Reads (atEnd : Fault) (l : Precedence) (fuel : Nat) (ts : List Token) (t : Tree) (rest : List Token) : Prop :=
  ∃ t', expression atEnd l fuel ts = .ok (t', rest) ∧ t'.erased = t.erased

theorem Reads.loosen {n : Nat} (reads : k.Reads atEnd fuel ts t rest) (looser : k.rank = l.rank + n)
    (ends : l.Ends rest) :
    l.Reads atEnd (fuel + n) ts t rest := by
  induction n generalizing l with
  | zero =>
    obtain rfl := eq_of_rank looser
    exact reads
  | succ n ih =>
    have inner : l ≠ .atom := by
      rintro rfl
      have most := k.rank_le
      simp only [rank] at looser most
      omega
    have one := rank_next inner
    obtain ⟨t', parsed, same⟩ := ih (l := l.next) (by omega) (ends.mono (by omega))
    exact ⟨t', parse_of_next inner ends parsed, same⟩

end Precedence

theorem expect_here (sign : u.kind = k) : expect atEnd k (u :: rest) = .ok (u, rest) := by
  simp [expect, sign]

namespace Tree

def Parses (atEnd : Fault) (t : Tree) : Prop :=
  ∀ (l : Precedence) (ts rest : List Token) (fuel : Nat), ts.map Token.symbol = t.spellAt l → l.Ends rest →
    16 * ts.length + 9 ≤ fuel + l.rank → l.Reads atEnd fuel (ts ++ rest) t rest

/-- The expression is read again where its own level is read. -/
def ParsesOwn (atEnd : Fault) (t : Tree) : Prop :=
  ∀ (ts rest : List Token) (fuel : Nat), ts.map Token.symbol = t.spell → t.level.Ends rest →
    16 * ts.length + 9 ≤ fuel + t.level.rank → t.level.Reads atEnd fuel (ts ++ rest) t rest

variable {l : Precedence}

theorem ParsesOwn.bare (own : ParsesOwn atEnd t) (tight : l.rank ≤ t.level.rank)
    (spelled : ts.map Token.symbol = t.spell) (ends : l.Ends rest) (enough : 16 * ts.length + 9 ≤ fuel + l.rank) :
    l.Reads atEnd fuel (ts ++ rest) t rest := by
  have most := t.level.rank_le
  have reads := own ts rest (fuel - (t.level.rank - l.rank)) spelled (ends.mono tight) (by omega)
  have loose := reads.loosen (n := t.level.rank - l.rank) (by omega) ends
  rwa [show fuel - (t.level.rank - l.rank) + (t.level.rank - l.rank) = fuel by omega] at loose

theorem ParsesOwn.parses (own : ParsesOwn atEnd t) : Parses atEnd t := by
  intro l ts rest fuel spelled ends enough
  unfold spellAt enclosed at spelled
  split at spelled
  · -- In parentheses the expression is read from the loosest level on, and the parentheses are an atom.
    obtain ⟨us, v, none, rfl, inner, closing, empty⟩ := split_at_sign spelled
    obtain ⟨u, us, rfl, opening, inner⟩ := map_eq_cons_iff.mp inner
    obtain rfl := map_eq_nil_iff.mp empty
    simp only [length_append, length_cons, length_nil] at enough
    have most := l.rank_le
    have ends' : Precedence.choice.Ends (v :: rest) := Precedence.ends_of_closing (by rw [closing]; rfl)
    obtain ⟨t', parsed, same⟩ := own.bare (Nat.zero_le _) inner ends'
      (show 16 * us.length + 9 ≤ fuel - (9 - l.rank) - 1 + Precedence.choice.rank by simp only [Precedence.rank]; omega)
    have reads : Precedence.atom.Reads atEnd (fuel - (9 - l.rank) - 1 + 1) (u :: us ++ [v] ++ rest) t rest := by
      refine ⟨t', ?_, same⟩
      simp [expression, Token.of_symbol_sign opening, parsed, ok_bind, expect_here closing, pure,
        Except.pure]
    have loose := reads.loosen (n := 9 - l.rank) (show 9 = l.rank + (9 - l.rank) by omega) ends
    rwa [show fuel - (9 - l.rank) - 1 + 1 + (9 - l.rank) = fuel by omega] at loose
  · exact own.bare (by omega) spelled ends enough

theorem parsesOwn_literal (line : Line) (v : Literal) : ParsesOwn atEnd (.literal line v) := by
  intro ts rest fuel spelled ends enough
  obtain ⟨u, us, rfl, told, empty⟩ := map_eq_cons_iff.mp spelled
  obtain ⟨constant, value⟩ := Token.of_symbol_constant told
  simp only [level, Precedence.rank, length_cons, length_nil] at enough
  obtain _ | n := fuel
  · omega
  refine ⟨.literal (some u.line) v, ?_, rfl⟩
  simp only [level, cons_append, nil_append, expression]
  cases kind : u.kind <;> simp_all [TokenKind.isConstant]

theorem parsesOwn_variable (line : Line) (name : String) : ParsesOwn atEnd (.variable line name) := by
  intro ts rest fuel spelled ends enough
  obtain ⟨u, us, rfl, told, empty⟩ := map_eq_cons_iff.mp spelled
  obtain rfl := map_eq_nil_iff.mp empty
  obtain ⟨kind, word⟩ := Token.of_symbol_name told
  simp only [level, Precedence.rank, length_cons, length_nil] at enough
  obtain _ | n := fuel
  · omega
  refine ⟨.variable (some u.line) name, ?_, rfl⟩
  have alone : peek rest ≠ some .openParen := by
    cases rest with
    | nil => simp [peek]
    | cons v rest =>
      intro opening
      have same : v.kind = .openParen := by simpa [peek] using opening
      exact ends.not_joins (by rw [same]; rfl)
  simp [level, expression, kind, word, alone]

theorem parsesOwn_index (line : Line) (base : Parses atEnd a) (offset : Parses atEnd b) :
    ParsesOwn atEnd (.binary line .index a b) := by
  intro ts rest fuel spelled ends enough
  obtain ⟨us, w, none, rfl, inner, closing, empty⟩ := split_at_sign spelled
  obtain rfl := map_eq_nil_iff.mp empty
  obtain ⟨us, v, vs, rfl, before, opening, after⟩ := split_at_sign inner
  simp only [level, BinaryOp.level, Precedence.rank, length_append, length_cons, length_nil] at enough
  obtain _ | n := fuel
  · omega
  obtain ⟨a', parsedBase, sameBase⟩ := base .atom us (v :: vs ++ w :: rest) n before
    (Precedence.ends_of_joins (by rw [opening]; rfl) (by decide)) (by simp only [Precedence.rank]; omega)
  obtain ⟨b', parsedOffset, sameOffset⟩ := offset .choice vs (w :: rest) n (by rw [spellAt_choice]; exact after)
    (Precedence.ends_of_closing (by rw [closing]; rfl)) (by simp only [Precedence.rank]; omega)
  refine ⟨.binary (some v.line) .index a' b', ?_, by simp only [erased, sameBase, sameOffset]⟩
  simp only [cons_append] at parsedBase
  simp [level, BinaryOp.level, expression, parsedBase, ok_bind, opening, parsedOffset,
    expect_here closing, pure, Except.pure]

theorem parsesOwn_unary (line : Line) (op : UnaryOp) (operand : Parses atEnd a) :
    ParsesOwn atEnd (.unary line op a) := by
  intro ts rest fuel spelled ends enough
  obtain ⟨u, us, rfl, told, after⟩ := map_eq_cons_iff.mp spelled
  simp only [level, Precedence.rank, length_cons] at enough
  obtain _ | n := fuel
  · omega
  obtain ⟨a', parsed, same⟩ := operand .indexed us rest n after (ends.mono (show 7 ≤ 8 by decide))
    (by simp only [Precedence.rank]; omega)
  have sign : signOp? u.kind = some op := by
    rw [Token.of_symbol_sign told]
    cases op <;> rfl
  refine ⟨.unary (some u.line) op a', ?_, by simp only [erased, same]⟩
  simp [level, expression, sign, parsed, ok_bind, pure, Except.pure]

theorem parsesOwn_comparison (line : Line) (comparison : op.level = .equality ∨ op.level = .order)
    (left : Parses atEnd a) (right : Parses atEnd b) : ParsesOwn atEnd (.binary line op a b) := by
  intro ts rest fuel spelled ends enough
  have between : op ≠ .index := by
    rintro rfl
    simp [BinaryOp.level] at comparison
  have place : op.leftLevel = op.level.next := by
    cases op <;> first | rfl | simp [BinaryOp.level] at comparison
  have tighter : op.level.next.rank = op.level.rank + 1 := by
    cases op <;> rfl
  rw [spell_binary between, place] at spelled
  obtain ⟨us, v, vs, rfl, before, sign, after⟩ := split_at_sign spelled
  simp only [level, length_append, length_cons] at ends enough
  have most := op.level.rank_le
  obtain ⟨n, rfl⟩ : ∃ n, fuel = n + 1 + 1 := ⟨fuel - 2, by omega⟩
  have ends' : op.level.next.Ends (v :: vs ++ rest) :=
    Precedence.ends_of_joins (by rw [sign]; exact op.joins_kind) (by omega)
  obtain ⟨a', parsedLeft, sameLeft⟩ := left _ us (v :: vs ++ rest) (n + 1) before ends' (by omega)
  obtain ⟨b', parsedRight, sameRight⟩ := right _ vs rest n after (ends.mono (by omega)) (by omega)
  refine ⟨.binary (some v.line) op a' b', ?_, by simp only [erased, sameLeft, sameRight]⟩
  simp only [level, append_assoc, cons_append] at parsedLeft ⊢
  rw [Precedence.parse_between (by obtain same | same := comparison <;> rw [same] <;> rfl), parsedLeft, ok_bind,
    Precedence.further_join (sign ▸ Precedence.joining?_operator between) parsedRight,
    if_pos (by obtain same | same := comparison <;> rw [same] <;> rfl)]

/-- A sum or product at the left is read up to its last operator, and then the parser goes on. -/
def Continues (atEnd : Fault) (l : Precedence) (t : Tree) : Prop :=
  ∀ (ts rest : List Token) (fuel : Nat), ts.map Token.symbol = t.spellAt l → l.next.Ends rest →
    16 * ts.length + 9 ≤ fuel + l.rank →
    ∃ t' left, expression atEnd l fuel (ts ++ rest) = further atEnd l left t' rest ∧ t'.erased = t.erased ∧
      fuel ≤ left + ts.length + 1

section Chains

variable {l : Precedence} (chain : l = .sum ∨ l = .product)
include chain

theorem rank_chain : l.rank ≤ 6 ∧ l.next.rank = l.rank + 1 := by
  obtain rfl | rfl := chain <;> exact ⟨by decide, rfl⟩

theorem continues_of_other (other : t.level ≠ l) (parses : Parses atEnd t) : Continues atEnd l t := by
  intro ts rest fuel spelled ends enough
  have low := rank_chain chain
  have same : t.spellAt l = t.spellAt l.next := by
    have apart : t.level.rank ≠ l.rank := fun same => other (Precedence.eq_of_rank same)
    unfold spellAt enclosed
    congr 1
    exact propext ⟨fun _ => by omega, fun _ => by omega⟩
  obtain _ | n := fuel
  · omega
  obtain ⟨t', parsed, erases⟩ := parses l.next ts rest n (same ▸ spelled) ends (by omega)
  refine ⟨t', n, ?_, erases, by omega⟩
  rw [Precedence.parse_between (by obtain rfl | rfl := chain <;> rfl), parsed, ok_bind]

theorem continues_join (line : Line) (own : op.level = l) (left : Continues atEnd l a) (right : Parses atEnd b) :
    Continues atEnd l (.binary line op a b) := by
  intro ts rest fuel spelled ends enough
  have between : op ≠ .index := by
    rintro rfl
    simp [BinaryOp.level, ← own] at chain
  have place : op.leftLevel = l := by
    subst own
    cases op <;> first | rfl | simp [BinaryOp.level] at chain
  have low := rank_chain chain
  have bare : spellAt l (.binary line op a b) = (Tree.binary line op a b).spell := by
    simp [spellAt, enclosed, level, own]
  rw [bare, spell_binary between, place, own] at spelled
  obtain ⟨us, v, vs, rfl, before, sign, after⟩ := split_at_sign spelled
  simp only [length_append, length_cons] at enough ⊢
  have ends' : l.next.Ends (v :: vs ++ rest) :=
    Precedence.ends_of_joins (k := l) (by rw [sign, ← own]; exact op.joins_kind) (by omega)
  obtain ⟨a', n, parsedLeft, sameLeft, spent⟩ := left us (v :: vs ++ rest) fuel before ends' (by omega)
  obtain _ | n := n
  · omega
  obtain ⟨b', parsedRight, sameRight⟩ := right l.next vs rest n after ends (by omega)
  refine ⟨.binary (some v.line) op a' b', n, ?_, by simp only [erased, sameLeft, sameRight], by omega⟩
  simp only [append_assoc, cons_append] at parsedLeft ⊢
  rw [parsedLeft, Precedence.further_join (own ▸ sign ▸ Precedence.joining?_operator between) parsedRight,
    if_neg (by obtain rfl | rfl := chain <;> decide)]

theorem continues (t : Tree) (parses : ∀ s, sizeOf s ≤ sizeOf t → s.IsExpression → Parses atEnd s)
    (expr : t.IsExpression) : Continues atEnd l t := by
  by_cases own : t.level = l
  · cases t with
    | binary line op a b =>
      apply continues_join chain line own
      · exact continues a (fun s small => parses s (by simp only [binary.sizeOf_spec]; omega)) expr.1
      · exact parses b (by simp only [binary.sizeOf_spec]; omega) expr.2
    | _ => obtain rfl | rfl := chain <;> cases own
  · exact continues_of_other chain own (parses t (Nat.le_refl _) expr)
termination_by sizeOf t

end Chains

theorem parsesOwn_chain (line : Line) (chain : op.level = .sum ∨ op.level = .product)
    (continues : Continues atEnd op.level (.binary line op a b)) : ParsesOwn atEnd (.binary line op a b) := by
  intro ts rest fuel spelled ends enough
  have bare : spellAt op.level (.binary line op a b) = (Tree.binary line op a b).spell := by
    simp [spellAt, enclosed, level]
  have low := rank_chain chain
  simp only [level] at ends enough ⊢
  obtain ⟨t', left, parsed, same, spent⟩ := continues ts rest fuel (bare ▸ spelled) (ends.mono (by omega)) enough
  obtain _ | left := left
  · omega
  refine ⟨t', ?_, same⟩
  rw [parsed, Precedence.further_end ends]

theorem rowFurther_reads (conditions : l = .any ∨ l = .all) {more : List Tree}
    (parses : ∀ s ∈ b :: more, Parses atEnd s) (first : Tree) (sign : u.kind = l.rowSign)
    (spelled : ts.map Token.symbol = [.sign l.rowSign].intercalate (spellEach l.next (b :: more)))
    (ends : l.Ends rest) (enough : 16 * ts.length + 9 ≤ fuel + l.rank) :
    ∃ line items, further atEnd l fuel first (u :: ts ++ rest) = .ok (l.row line (l.rowItems first ++ items), rest) ∧
      erasedEach items = erasedEach (b :: more) := by
  have low : l.rank ≤ 2 ∧ l.next.rank = l.rank + 1 := by
    obtain rfl | rfl := conditions <;> exact ⟨by decide, rfl⟩
  obtain _ | n := fuel
  · omega
  -- The conditions that are still to come are read one by one; what stands before them is the row so far.
  induction more generalizing b first u ts n with
  | nil =>
    rw [spellEach, spellEach, intercalate_singleton] at spelled
    obtain ⟨b', parsed, same⟩ := parses b (by simp) l.next ts rest n spelled (ends.mono (by omega)) (by omega)
    obtain _ | n := n
    · omega
    obtain ⟨line, joined⟩ := Precedence.rowFurther_join conditions first sign parsed
    refine ⟨line, [b'], ?_, by simp only [erasedEach, same]⟩
    rw [cons_append, joined, Precedence.further_end ends]
  | cons c more ih =>
    obtain ⟨us, v, vs, rfl, before, sign', after⟩ := split_at_sign spelled
    simp only [length_append, length_cons] at enough
    have ends' : l.next.Ends (v :: vs ++ rest) :=
      Precedence.ends_of_joins (k := l) (by rw [sign']; exact Precedence.joins_rowSign conditions) (by omega)
    obtain ⟨b', parsed, same⟩ := parses b (by simp) l.next us (v :: vs ++ rest) n before ends' (by omega)
    obtain _ | n := n
    · omega
    obtain ⟨line, joined⟩ := Precedence.rowFurther_join conditions first sign parsed
    obtain ⟨line, items, read, erases⟩ := ih (fun s mem => parses s (.tail _ mem))
      (l.row line (l.rowItems first ++ [b'])) sign' (by rw [spellEach]; exact after) n (by omega)
    refine ⟨line, b' :: items, ?_, by simp only [erasedEach, same] at erases ⊢; rw [erases]⟩
    simp only [append_assoc, cons_append] at joined read ⊢
    rw [joined, read, Precedence.rowItems_row conditions, append_assoc, singleton_append]

theorem parsesOwn_row (conditions : l = .any ∨ l = .all) (line : Line) {more : List Tree} (first : a.level ≠ l)
    (parses : ∀ s ∈ a :: b :: more, Parses atEnd s)
    (spelling : (l.row line (a :: b :: more)).spell = [.sign l.rowSign].intercalate (spellEach l.next (a :: b :: more)))
    (own : (l.row line (a :: b :: more)).level = l) : ParsesOwn atEnd (l.row line (a :: b :: more)) := by
  intro ts rest fuel spelled ends enough
  rw [spelling, spellEach, spellEach, intercalate_cons_cons, append_assoc] at spelled
  rw [own] at ends enough ⊢
  have low : l.rank ≤ 2 ∧ l.next.rank = l.rank + 1 := by
    obtain rfl | rfl := conditions <;> exact ⟨by decide, rfl⟩
  obtain ⟨us, v, vs, rfl, before, sign, after⟩ := split_at_sign spelled
  simp only [length_append, length_cons] at enough
  obtain _ | n := fuel
  · omega
  have ends' : l.next.Ends (v :: vs ++ rest) :=
    Precedence.ends_of_joins (k := l) (by rw [sign]; exact Precedence.joins_rowSign conditions) (by omega)
  obtain ⟨a', parsed, same⟩ := parses a (by simp) l.next us (v :: vs ++ rest) n before ends' (by omega)
  obtain ⟨line', items, read, erases⟩ := rowFurther_reads conditions
    (fun s mem => parses s (.tail _ mem)) a' sign (by rw [spellEach]; exact after) ends
    (show 16 * vs.length + 9 ≤ n + l.rank by omega)
  have other : a'.level ≠ l := by
    rw [← level_erased, same, level_erased]
    exact first
  refine ⟨l.row line' (a' :: items), ?_, ?_⟩
  · rw [Precedence.parse_between (by obtain rfl | rfl := conditions <;> rfl), append_assoc, cons_append, ← cons_append, parsed, ok_bind, read,
      Precedence.rowItems_of_other other, singleton_append]
  · rw [Precedence.erased_row, Precedence.erased_row, erasedEach, erasedEach, same, erases]

theorem parsesOwn_choice (line : Line) {c y n : Tree} (cond : Parses atEnd c) (yes : Parses atEnd y)
    (no : Parses atEnd n) : ParsesOwn atEnd (.choice line c y (some n) true) := by
  intro ts rest fuel spelled ends enough
  obtain ⟨us, w, ws, rfl, inner, otherwise, last⟩ := split_at_sign spelled
  obtain ⟨us, v, vs, rfl, before, question, between⟩ := split_at_sign inner
  simp only [level, Precedence.rank, length_append, length_cons] at ends enough
  obtain _ | m := fuel
  · omega
  obtain ⟨c', parsedCond, sameCond⟩ := cond .any us (v :: vs ++ w :: ws ++ rest) m before
    (Precedence.ends_of_joins (by rw [question]; rfl) (by decide)) (by simp only [Precedence.rank]; omega)
  obtain ⟨y', parsedYes, sameYes⟩ := yes .choice vs (w :: ws ++ rest) m (by rw [spellAt_choice]; exact between)
    (Precedence.ends_of_closing (by rw [otherwise]; rfl)) (by simp only [Precedence.rank]; omega)
  obtain ⟨n', parsedNo, sameNo⟩ := no .choice ws rest m (by rw [spellAt_choice]; exact last) ends
    (by simp only [Precedence.rank]; omega)
  refine ⟨.choice (some v.line) c' y' (some n') true, ?_, by simp only [erased, sameCond, sameYes, sameNo]⟩
  simp only [append_assoc, cons_append] at parsedCond parsedYes
  simp [level, expression, parsedCond, ok_bind, question, parsedYes, expect_here otherwise, parsedNo,
    pure, Except.pure]

end Tree

end PineEngine.Script
