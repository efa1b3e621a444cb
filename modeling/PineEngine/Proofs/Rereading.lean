import PineEngine.Proofs.Operands

/-! # Reading what was written

The parser reads an expression that `Tree.spell` has written and comes back to the same tree, but for lines
(`Tree.parses`, `program_spell`). Names alone at the start of the arguments of a call are taken together, and keep no
line; the first argument that is more than a name, or is given by name, ends them (`Tree.bareNames_row`).
-/

namespace PineEngine.Script

open Script.Parser Script.Tree List Token

variable {atEnd : Fault} {fuel : Nat} {ts rest : List Token} {t : Tree}

namespace Tree

def startsExpression (k : TokenKind) : Bool :=
  k == .ident || k.isConstant || k == .openParen || (signOp? k).isSome

theorem Leads.tokens (leads : Leads (ts.map symbol)) (c : Token) (rest : List Token) :
    ∃ u us v vs, ts = u :: us ∧ us ++ c :: rest = v :: vs ∧ startsExpression u.kind ∧
      (u.kind = .ident → v.kind.joins?.isSome) := by
  cases ts with
  | nil => exact leads.elim
  | cons u us =>
    obtain ⟨v, vs, follow⟩ : ∃ v vs, us ++ c :: rest = v :: vs := by cases us <;> exact ⟨_, _, rfl⟩
    refine ⟨u, us, v, vs, rfl, follow, ?_⟩
    cases told : u.symbol with
    | constant value =>
      have constant := (of_symbol_constant told).1
      refine ⟨by simp [startsExpression, constant], fun name => ?_⟩
      rw [name] at constant
      cases constant
    | sign k =>
      have kind := of_symbol_sign told
      simp only [map_cons, told, Leads] at leads
      obtain rfl | sign := leads
      · simp [kind, startsExpression]
      · refine ⟨by simp [kind, startsExpression, sign], fun name => ?_⟩
        rw [kind] at name
        rw [name] at sign
        cases sign
    | name word =>
      refine ⟨by simp [(of_symbol_name told).1, startsExpression], fun _ => ?_⟩
      cases us with
      | nil => simp [told, Leads] at leads
      | cons w ws =>
        obtain ⟨rfl, rfl⟩ := List.cons.inj follow
        simp only [map_cons, told] at leads
        cases next : w.symbol with
        | sign k =>
          rw [next] at leads
          rw [of_symbol_sign next]
          exact leads
        | name _ | constant _ =>
          rw [next] at leads
          exact leads.elim

theorem Begins.token (begins : t.Begins) (spelled : ts.map symbol = t.spell) :
    ∃ u us, ts = u :: us ∧ startsExpression u.kind := by
  obtain ⟨line, name, rfl⟩ | leads := begins
  · obtain ⟨u, us, rfl, told, _⟩ := map_eq_cons_iff.mp spelled
    exact ⟨u, us, rfl, by simp [startsExpression, (of_symbol_name told).1]⟩
  · obtain ⟨u, us, _, _, rfl, _, starts, _⟩ := (spelled ▸ leads : Leads (ts.map symbol)).tokens default []
    exact ⟨u, us, rfl, starts⟩

theorem bareNames_other {close : TokenKind} {u v : Token} {vs : List Token} (ends : close.joins? = none)
    (goesOn : u.kind = .ident → v.kind.joins?.isSome ∨ v.kind = .define) (apart : close ≠ .define) :
    bareNames close (u :: v :: vs) = ([], false, u :: v :: vs) := by
  unfold bareNames
  by_cases name : u.kind = .ident
  · have open_ : v.kind ≠ close ∧ v.kind ≠ .comma := by
      obtain joins | define := goesOn name
      · constructor
        · rintro rfl
          simp [ends] at joins
        · intro comma
          simp [comma, TokenKind.joins?] at joins
      · simp [define, apart.symm]
    simp [name, open_]
  · simp [name]

theorem named_start (k : String) (e : Tree) (named : List (String × Tree)) :
    ∃ more, [.sign .comma].intercalate (spellNamed ((k, e) :: named)) = .name k :: .sign .define :: more := by
  rw [spellNamed]
  cases spellNamed named with
  | nil => exact ⟨_, intercalate_singleton⟩
  | cons p ps =>
    exact ⟨_, rfl⟩

variable {args : List Tree} {c : Token} {named : List (String × Tree)}

theorem spelled_nil : spellEach .choice args ++ spellNamed named = [] ↔ args = [] ∧ named = [] := by
  cases args <;> cases named <;> simp [spellEach, spellNamed]

theorem bareNames_row (rest : List Token) (exprs : AreExpressions args) (present : args ≠ [] ∨ named ≠ [])
    (closing : c.kind = .closeParen)
    (spelled : ts.map symbol = [.sign .comma].intercalate (spellEach .choice args ++ spellNamed named)) :
    (∃ names, bareNames .closeParen (ts ++ c :: rest) = (names, true, rest) ∧ named = [] ∧
      erasedEach args = names.map bareName) ∨
    (∃ names more us, bareNames .closeParen (ts ++ c :: rest) = (names, false, us ++ c :: rest) ∧
      erasedEach args = names.map bareName ++ erasedEach more ∧ (∀ s ∈ more, s ∈ args) ∧ (more ≠ [] ∨ named ≠ []) ∧
      us.map symbol = [.sign .comma].intercalate (spellEach .choice more ++ spellNamed named) ∧
      us.length ≤ ts.length) := by
  induction args generalizing ts with
  | nil =>
    right
    refine ⟨[], [], ts, ?_, rfl, by simp, present, spelled, Nat.le_refl _⟩
    obtain ⟨⟨k, e⟩, named, rfl⟩ := exists_cons_of_ne_nil (present.resolve_left (by simp))
    obtain ⟨more, start⟩ := named_start k e named
    obtain ⟨u, us, rfl, name, start⟩ := map_eq_cons_iff.mp (spelled.trans start)
    obtain ⟨v, vs, rfl, sign, _⟩ := map_eq_cons_iff.mp start
    exact bareNames_other rfl (fun _ => .inr (of_symbol_sign sign)) (by decide)
  | cons a args ih =>
    rw [spellEach, cons_append] at spelled
    obtain ⟨line, name, rfl⟩ | leads := begins a exprs.1
    · -- A name is taken, and the row goes on behind the comma if there is one.
      have alone : enclosed .choice (Tree.variable line name).level (Tree.variable line name).spell = [.name name] :=
        rfl
      obtain ⟨last, spelled⟩ | ⟨others, us, v, vs, rfl, before, comma, after⟩ := split_row spelled
      · obtain ⟨u, us, rfl, told, empty⟩ := map_eq_cons_iff.mp spelled
        obtain rfl := map_eq_nil_iff.mp empty
        obtain ⟨kind, word⟩ := of_symbol_name told
        obtain ⟨rfl, rfl⟩ := spelled_nil.mp last
        left
        exact ⟨[name], by simp [bareNames, kind, word, closing], rfl, rfl⟩
      · obtain ⟨u, us, rfl, told, empty⟩ := map_eq_cons_iff.mp before
        obtain rfl := map_eq_nil_iff.mp empty
        obtain ⟨kind, word⟩ := of_symbol_name told
        have present' : args ≠ [] ∨ named ≠ [] := not_and_or.mp fun none => others (spelled_nil.mpr none)
        have step : bareNames .closeParen ([u] ++ v :: vs ++ c :: rest) =
            (name :: (bareNames .closeParen (vs ++ c :: rest)).1, (bareNames .closeParen (vs ++ c :: rest)).2) := by
          simp [bareNames, kind, word, comma]
        obtain ⟨names, read, noNamed, same⟩ | ⟨names, more, ws, read, same, among, some, spelled', short⟩ :=
          ih exprs.2 present' after
        · left
          exact ⟨name :: names, by rw [step, read], noNamed, by simp only [erasedEach, same, erased]; rfl⟩
        · right
          refine ⟨name :: names, more, ws, by rw [step, read], ?_, fun s mem => mem_cons_of_mem _ (among s mem),
            some, spelled', ?_⟩
          · simp only [erasedEach, same, erased]
            rfl
          · simp only [length_append, length_cons, length_nil]
            omega
    · -- What is more than a name ends the names.
      right
      have leads' : Leads (ts.map symbol) := by
        have bare : enclosed .choice a.level a.spell = a.spell := spellAt_choice a
        rw [spelled, bare]
        cases spellEach .choice args ++ spellNamed named with
        | nil =>
          rw [intercalate_singleton]
          exact leads
        | cons p ps =>
          exact leads.append _
      refine ⟨[], a :: args, ts, ?_, rfl, fun s mem => mem, .inl (by simp), ?_, Nat.le_refl _⟩
      · obtain ⟨u, us, v, vs, rfl, follow, _, goesOn⟩ := leads'.tokens c rest
        rw [cons_append, follow]
        exact bareNames_other rfl (fun name => .inl (goesOn name)) (by decide)
      · rw [spelled, spellEach, cons_append]

theorem setNamed_new {key : String} {v : Tree} {acc : List (String × Tree)} (new : key ∉ acc.map Prod.fst) :
    setNamed key v acc = acc ++ [(key, v)] := by
  induction acc with
  | nil => rfl
  | cons kv acc ih =>
    simp only [map_cons, mem_cons, not_or] at new
    simp [setNamed, Ne.symm new.1, ih new.2]

theorem namedRest_reads (rest : List Token) (acc : List (String × Tree)) (present : named ≠ [])
    (parses : ∀ kv ∈ named, Parses atEnd kv.2) (apart : ((acc ++ named).map Prod.fst).Nodup)
    (closing : c.kind = .closeParen) (spelled : ts.map symbol = [.sign .comma].intercalate (spellNamed named))
    (enough : 16 * ts.length + 9 ≤ fuel) :
    ∃ named', namedRest atEnd fuel acc (ts ++ c :: rest) = .ok (acc ++ named', rest) ∧
      erasedNamed named' = erasedNamed named := by
  induction named generalizing ts fuel acc with
  | nil => exact absurd rfl present
  | cons kv named ih =>
    obtain ⟨k, e⟩ := kv
    have new : k ∉ acc.map Prod.fst := by
      intro old
      simp only [map_append, map_cons] at apart
      exact (nodup_append.mp apart).2.2 k old k (by simp) rfl
    have parses' := parses (k, e) (by simp)
    obtain _ | n := fuel
    · omega
    -- A name, its sign and an expression, and then a comma or the closing parenthesis.
    have one : ∀ us follow, us.map symbol = .name k :: .sign .define :: e.spell →
        (∃ u more, follow = u :: more ∧ u.kind.joins? = none) → 16 * us.length ≤ n →
        ∃ e', e'.erased = e.erased ∧ namedRest atEnd (n + 1) acc (us ++ follow) =
          (if peek follow == some .comma then namedRest atEnd n (acc ++ [(k, e')]) (follow.drop 1) else do
            let r ← expect atEnd .closeParen follow
            pure (acc ++ [(k, e')], r.2)) := by
      intro us follow before ends enough
      obtain ⟨u, us, rfl, told, before⟩ := map_eq_cons_iff.mp before
      obtain ⟨v, us, rfl, sign, before⟩ := map_eq_cons_iff.mp before
      obtain ⟨name, word⟩ := of_symbol_name told
      obtain ⟨w, more, rfl, ends⟩ := ends
      simp only [length_cons] at enough
      obtain ⟨e', parsed, same⟩ := parses' .choice us (w :: more) n (by rw [spellAt_choice]; exact before)
        (Precedence.ends_of_closing ends) (by simp only [Precedence.rank]; omega)
      refine ⟨e', same, ?_⟩
      simp only [cons_append, namedRest, expect_here name, expect_here (of_symbol_sign sign), ok_bind,
        parsed, word, setNamed_new new]
    obtain ⟨last, spelled⟩ | ⟨others, us, v, vs, rfl, before, comma, after⟩ := split_row spelled
    · obtain ⟨e', same, read⟩ := one ts (c :: rest) spelled ⟨c, rest, rfl, by rw [closing]; rfl⟩ (by omega)
      have empty : named = [] := by
        cases named with
        | nil => rfl
        | cons kv named => simp [spellNamed] at last
      subst empty
      refine ⟨[(k, e')], ?_, by simp only [erasedNamed, same]⟩
      rw [read]
      simp [peek, closing, expect_here closing, ok_bind, pure, Except.pure]
    · simp only [length_append, length_cons] at enough
      obtain ⟨e', same, read⟩ := one us (v :: vs ++ c :: rest) before ⟨v, _, rfl, by rw [comma]; rfl⟩ (by omega)
      have present' : named ≠ [] := by
        rintro rfl
        exact others rfl
      obtain ⟨named', read', erases⟩ := ih (acc ++ [(k, e')]) present'
        (fun kv mem => parses kv (.tail _ mem)) (by simpa using apart) after
        (show 16 * vs.length + 9 ≤ n by omega)
      refine ⟨(k, e') :: named', ?_, by simp only [erasedNamed, same, erases]⟩
      rw [append_assoc, cons_append, ← cons_append, read]
      simp [peek, comma, read']

theorem argumentsRest_reads (rest : List Token) (present : args ≠ [] ∨ named ≠ [])
    (parses : ∀ s ∈ args, s.IsExpression ∧ Parses atEnd s) (parsesNamed : ∀ kv ∈ named, Parses atEnd kv.2)
    (apart : (named.map Prod.fst).Nodup) (closing : c.kind = .closeParen)
    (spelled : ts.map symbol = [.sign .comma].intercalate (spellEach .choice args ++ spellNamed named))
    (enough : 16 * ts.length + 10 ≤ fuel) :
    ∃ args' named', argumentsRest atEnd fuel (ts ++ c :: rest) = .ok ((args', named'), rest) ∧
      erasedEach args' = erasedEach args ∧ erasedNamed named' = erasedNamed named := by
  obtain _ | n := fuel
  · omega
  induction args generalizing ts n with
  | nil =>
    obtain ⟨named', read, erases⟩ := namedRest_reads rest [] (present.resolve_left (by simp)) parsesNamed
      (by simpa using apart) closing spelled (show 16 * ts.length + 9 ≤ n by omega)
    have start : peek (ts ++ c :: rest) = some .ident ∧ peek2 (ts ++ c :: rest) = some .define := by
      obtain ⟨⟨k, e⟩, more, rfl⟩ := exists_cons_of_ne_nil (present.resolve_left (by simp))
      obtain ⟨q, both⟩ := named_start k e more
      obtain ⟨u, us, rfl, name, both⟩ := map_eq_cons_iff.mp (spelled.trans both)
      obtain ⟨v, vs, rfl, sign, _⟩ := map_eq_cons_iff.mp both
      simp [peek, peek2, (of_symbol_name name).1, of_symbol_sign sign]
    refine ⟨[], named', ?_, rfl, erases⟩
    simp [argumentsRest, start, read, ok_bind, pure, Except.pure]
  | cons a args ih =>
    obtain ⟨exprA, parsesA⟩ := parses a (by simp)
    -- An expression, and then a comma or the closing parenthesis.
    have one : ∀ us w more, us.map symbol = a.spell → w.kind = .comma ∨ w.kind = .closeParen →
        16 * us.length + 9 ≤ n →
        ∃ a', a'.erased = a.erased ∧ argumentsRest atEnd (n + 1) (us ++ w :: more) = (if w.kind == .comma then do
            let r ← argumentsRest atEnd n more
            pure ((a' :: r.1.1, r.1.2), r.2)
           else do
            let r ← expect atEnd .closeParen (w :: more)
            pure (([a'], []), r.2)) := by
      intro us w more before ends enough
      have stops : w.kind.joins? = none := by obtain kind | kind := ends <;> rw [kind] <;> rfl
      obtain ⟨a', parsed, same⟩ := parsesA .choice us (w :: more) n (by rw [spellAt_choice]; exact before)
        (Precedence.ends_of_closing stops) (by simp only [Precedence.rank]; omega)
      refine ⟨a', same, ?_⟩
      have unnamed : (peek (us ++ w :: more) == some .ident && peek2 (us ++ w :: more) == some .define) = false := by
        simp only [Bool.and_eq_false_iff, beq_eq_false_iff_ne, ← not_and_or]
        rintro ⟨name, define⟩
        obtain ⟨line, word, rfl⟩ | leads := begins a exprA
        · obtain ⟨u, vs, rfl, _, empty⟩ := map_eq_cons_iff.mp before
          obtain rfl := map_eq_nil_iff.mp empty
          obtain kind | kind := ends <;> simp [peek2, kind] at define
        · obtain ⟨u, us, v, vs, rfl, follow, _, goesOn⟩ :=
            (before ▸ leads : Leads (us.map symbol)).tokens w more
          rw [cons_append, follow] at name define
          simp only [peek, peek2, head?_cons, drop_succ_cons, drop_zero, Option.map_some,
            Option.some.injEq] at name define
          have joins := goesOn name
          rw [define] at joins
          cases joins
      simp only [argumentsRest, unnamed, Bool.false_eq_true, if_false, parsed, ok_bind]
      rfl
    have bare : enclosed .choice a.level a.spell = a.spell := spellAt_choice a
    obtain ⟨last, spelled⟩ | ⟨others, us, v, vs, rfl, before, comma, after⟩ := split_row spelled
    · obtain ⟨a', same, read⟩ := one ts c rest (bare ▸ spelled) (.inr closing) (by omega)
      obtain ⟨rfl, rfl⟩ := spelled_nil.mp last
      refine ⟨[a'], [], ?_, by simp only [erasedEach, same], rfl⟩
      rw [read]
      simp [closing, expect_here closing, ok_bind, pure, Except.pure]
    · simp only [length_append, length_cons] at enough
      obtain ⟨a', same, read⟩ := one us v (vs ++ c :: rest) (bare ▸ before) (.inl comma) (by omega)
      have present' : args ≠ [] ∨ named ≠ [] := not_and_or.mp fun none => others (spelled_nil.mpr none)
      obtain _ | n := n
      · omega
      obtain ⟨args', named', read', erases, erasesNamed⟩ := ih present'
        (fun s mem => parses s (.tail _ mem)) after n (by omega)
      refine ⟨a' :: args', named', ?_, by simp only [erasedEach, same, erases], erasesNamed⟩
      rw [append_assoc, cons_append, read]
      simp [comma, read', ok_bind, pure, Except.pure]

theorem erasedEach_bareNames (names : List String) : erasedEach (names.map bareName) = names.map bareName := by
  induction names with
  | nil => rfl
  | cons name names ih => simp only [map_cons, erasedEach, ih, bareName, erased]

theorem arguments_start (exprs : AreExpressions args) (present : args ≠ [] ∨ named ≠ [])
    (spelled : ts.map symbol = [.sign .comma].intercalate (spellEach .choice args ++ spellNamed named)) :
    ∃ u us, ts = u :: us ∧ startsExpression u.kind := by
  cases args with
  | nil =>
    obtain ⟨⟨k, e⟩, named, rfl⟩ := exists_cons_of_ne_nil (present.resolve_left (by simp))
    obtain ⟨more, start⟩ := named_start k e named
    obtain ⟨u, us, rfl, told, _⟩ := map_eq_cons_iff.mp (spelled.trans start)
    exact ⟨u, us, rfl, by simp [startsExpression, (of_symbol_name told).1]⟩
  | cons a args =>
    have bare : enclosed .choice a.level a.spell = a.spell := spellAt_choice a
    obtain ⟨_, spelled⟩ | ⟨_, us, v, vs, rfl, before, _, _⟩ := split_row spelled
    · exact (begins a exprs.1).token spelled
    · obtain ⟨u, us, rfl, starts⟩ := (begins a exprs.1).token before
      exact ⟨u, us ++ v :: vs, rfl, starts⟩

section Arguments

variable (parses : ∀ s ∈ args, s.IsExpression ∧ Parses atEnd s) (exprs : AreExpressions args)
  (parsesNamed : ∀ kv ∈ named, Parses atEnd kv.2) (apart : (named.map Prod.fst).Nodup)

include parses exprs parsesNamed apart

theorem arguments_reads (rest : List Token) (closing : c.kind = .closeParen)
    (spelled : ts.map symbol = [.sign .comma].intercalate (spellEach .choice args ++ spellNamed named))
    (enough : 16 * ts.length + 11 ≤ fuel) :
    ∃ args' named', Parser.arguments atEnd fuel (ts ++ c :: rest) = .ok ((args', named'), rest) ∧
      erasedEach args' = erasedEach args ∧ erasedNamed named' = erasedNamed named := by
  obtain _ | n := fuel
  · omega
  by_cases none : args = [] ∧ named = []
  · obtain ⟨rfl, rfl⟩ := none
    obtain rfl := map_eq_nil_iff.mp (spelled.trans intercalate_nil)
    exact ⟨[], [], by simp [Parser.arguments, peek, closing], rfl, rfl⟩
  · have present : args ≠ [] ∨ named ≠ [] := by
      by_contra absent
      exact none (not_or.mp absent |>.imp not_not.mp not_not.mp)
    have started : peek (ts ++ c :: rest) ≠ some .closeParen := by
      obtain ⟨u, us, rfl, starts⟩ := arguments_start exprs present spelled
      intro closed
      simp only [peek, cons_append, head?_cons, Option.map_some, Option.some.injEq] at closed
      rw [closed] at starts
      cases starts
    obtain ⟨names, read, rfl, same⟩ | ⟨names, more, us, read, same, among, present', spelled', short⟩ :=
      bareNames_row rest exprs present closing spelled
    · exact ⟨names.map bareName, [], by simp [Parser.arguments, started, read], by rw [same, erasedEach_bareNames], rfl⟩
    · obtain ⟨args', named', read', erases, erasesNamed⟩ := argumentsRest_reads rest present'
        (fun s mem => parses s (among s mem)) parsesNamed apart closing spelled' (show 16 * us.length + 10 ≤ n by omega)
      refine ⟨names.map bareName ++ args', named', ?_, ?_, erasesNamed⟩
      · simp [Parser.arguments, started, read, read', ok_bind, pure, Except.pure]
      · rw [same, erasedEach_append, erasedEach_bareNames, erases]

theorem parsesOwn_call (line : Line) (name : String) : ParsesOwn atEnd (.call line name args named) := by
  intro ts rest fuel spelled ends enough
  obtain ⟨us, w, none, rfl, inner, closing, empty⟩ := split_at_sign spelled
  obtain rfl := map_eq_nil_iff.mp empty
  obtain ⟨u, us, rfl, told, inner⟩ := map_eq_cons_iff.mp inner
  obtain ⟨v, us, rfl, opening, inner⟩ := map_eq_cons_iff.mp inner
  obtain ⟨kind, word⟩ := of_symbol_name told
  simp only [level, Precedence.rank, length_append, length_cons, length_nil] at enough
  obtain _ | n := fuel
  · omega
  obtain ⟨args', named', read, erases, erasesNamed⟩ := arguments_reads parses exprs parsesNamed apart
    rest closing inner (show 16 * us.length + 11 ≤ n by omega)
  refine ⟨.call (some u.line) name args' named', ?_, by simp only [erased, erases, erasesNamed]⟩
  simp [level, expression, kind, word, peek, of_symbol_sign opening, read, ok_bind, pure,
    Except.pure]

end Arguments

theorem isExpression_of_mem_named (all : AreNamedExpressions named) {kv : String × Tree} (mem : kv ∈ named) :
    kv.2.IsExpression := by
  induction named with
  | nil => cases mem
  | cons kv' named ih =>
    obtain ⟨first, later⟩ := all
    cases mem with
    | head => exact first
    | tail _ mem => exact ih later mem

theorem parses (t : Tree) (expr : t.IsExpression) : Parses atEnd t := by
  apply ParsesOwn.parses
  match t, expr with
  | .literal line v, _ => exact parsesOwn_literal line v
  | .variable line name, _ => exact parsesOwn_variable line name
  | .call line name args named, expr =>
    obtain ⟨exprs, namedExprs, apart⟩ := expr
    apply parsesOwn_call _ exprs _ apart line name
    · exact fun s mem => ⟨isExpression_of_mem exprs mem, parses s (isExpression_of_mem exprs mem)⟩
    · exact fun kv mem => parses kv.2 (isExpression_of_mem_named namedExprs mem)
  | .binary line op a b, expr =>
    cases kind : op.level with
    | equality | order => exact parsesOwn_comparison line (by simp [kind]) (parses a expr.1) (parses b expr.2)
    | sum | product =>
      have chain : op.level = .sum ∨ op.level = .product := by simp [kind]
      exact parsesOwn_chain line chain (continues_join chain line rfl
        (continues chain a (fun s small wf => parses s wf) expr.1) (parses b expr.2))
    | indexed =>
      obtain rfl : op = .index := by cases op <;> first | rfl | cases kind
      exact parsesOwn_index line (parses a expr.1) (parses b expr.2)
    | choice | any | all | signed | atom => cases op <;> cases kind
  | .unary line op a, expr => exact parsesOwn_unary line op (parses a expr)
  | .anyOf line items, expr =>
    have each : ∀ s ∈ items, Parses atEnd s := fun s mem => parses s (isExpression_of_mem expr.1 mem)
    obtain ⟨_, a, b, more, rfl, first⟩ := expr
    exact parsesOwn_row (.inl rfl) line first each rfl rfl
  | .allOf line items, expr =>
    have each : ∀ s ∈ items, Parses atEnd s := fun s mem => parses s (isExpression_of_mem expr.1 mem)
    obtain ⟨_, a, b, more, rfl, first⟩ := expr
    exact parsesOwn_row (.inr rfl) line first each rfl rfl
  | .choice line c y (some n) true, expr =>
    exact parsesOwn_choice line (parses c expr.1) (parses y expr.2.1) (parses n expr.2.2)
termination_by sizeOf t
decreasing_by
  all_goals simp only [call.sizeOf_spec, binary.sizeOf_spec, unary.sizeOf_spec, anyOf.sizeOf_spec, allOf.sizeOf_spec,
    choice.sizeOf_spec, Option.some.sizeOf_spec]
  all_goals first
    | omega
    | (have small := sizeOf_lt_of_mem mem
       omega)
    | (have small := sizeOf_lt_of_mem mem
       cases kv
       simp only [Prod.mk.sizeOf_spec] at small ⊢
       omega)

theorem statement_define (atEnd : Fault) (rest : List Token) {e : Tree} (expr : e.IsExpression) {u v w : Token}
    (name : u.kind = .ident) (sign : v.kind = .define) (delim : w.kind = .delim) (spelled : ts.map symbol = e.spell)
    (enough : 16 * ts.length + 10 ≤ fuel) :
    ∃ e', Parser.statement atEnd fuel (u :: v :: ts ++ w :: rest) = .ok (.define (some u.line) u.word e', rest) ∧
      e'.erased = e.erased := by
  obtain _ | n := fuel
  · omega
  have reads : Parses atEnd e := parses e expr
  obtain ⟨e', parsed, same⟩ := reads .choice ts (w :: rest) n
    (by rw [spellAt_choice]; exact spelled) (Precedence.ends_of_closing (by rw [delim]; rfl))
    (by simp only [Precedence.rank]; omega)
  have plain : (peek (ts ++ w :: rest) == some .ifCond || peek (ts ++ w :: rest) == some .forLoop) = false := by
    obtain ⟨x, xs, rfl, starts⟩ := (begins e expr).token spelled
    simp only [peek, cons_append, head?_cons, Option.map_some]
    cases kind : x.kind <;> first | rfl | (rw [kind] at starts; cases starts)
  have noHead : functionHead? (u :: v :: (ts ++ w :: rest)) = none := by simp [functionHead?, sign]
  have follow : peek (v :: (ts ++ w :: rest)) = some .define := by simp [peek, sign]
  refine ⟨e', ?_, same⟩
  simp only [Parser.statement, cons_append, name, noHead, follow, drop_succ_cons, drop_zero, plain,
    Bool.false_eq_true, if_false, parsed, ok_bind]
  simp [peek, delim, expect_here delim, ok_bind, pure, Except.pure]

theorem statements_one {budget : Nat} (present : ts ≠ []) (read : Parser.statement atEnd budget ts = .ok (t, [])) :
    Parser.statements atEnd budget ts.length ts = .ok [t] := by
  obtain ⟨u, us, rfl⟩ := exists_cons_of_ne_nil present
  simp only [length_cons, Parser.statements, read, ok_bind]
  rfl

end Tree

/-- A definition whose expression is written by `Tree.spell` is read as that definition. -/
theorem program_spell (name : String) (e : Tree) (s : Lexer.Scan) (expr : e.IsExpression) (whole : s.fault = none)
    (spelled : s.tokens.map symbol = .name name :: .sign .define :: e.spell ++ [.sign .delim]) :
    ∃ line e', Parser.program s = .ok (some (.block none [.define line name e'])) ∧ e'.erased = e.erased := by
  obtain ⟨us, w, none, tokens, inner, delim, empty⟩ := split_at_sign spelled
  obtain rfl := List.map_eq_nil_iff.mp empty
  obtain ⟨u, us, rfl, told, inner⟩ := List.map_eq_cons_iff.mp inner
  obtain ⟨v, us, rfl, sign, inner⟩ := List.map_eq_cons_iff.mp inner
  obtain ⟨kind, word⟩ := Token.of_symbol_name told
  obtain ⟨e', read, same⟩ := statement_define (.script (.unexpectedToken none)) [] expr kind
    (Token.of_symbol_sign sign) delim inner
    (show 16 * us.length + 10 ≤ 16 * s.tokens.length + 16 by simp [tokens]; omega)
  refine ⟨some u.line, e', ?_, same⟩
  rw [word, ← tokens] at read
  have present : s.tokens ≠ [] := by simp [tokens]
  simp [Parser.program, whole, present, statements_one present read, ok_bind, pure, Except.pure]

/-- A call with a name, a product and a choice as its arguments. -/
def signalTree : Tree :=
  .call none "f" [.variable none "a",
      .binary none .mul (.unary none .minus (.binary none .index (.variable none "b") (.literal none (.int 1))))
        (.binary none .add (.variable none "c") (.literal none (.int 2)))]
    [("when", .choice none (.allOf none [.variable none "p",
          .unary none .not (.anyOf none [.variable none "q", .variable none "r"])])
        (.literal none (.bool true)) (some (.literal none (.text "t"))) true)]

def signalText : String :=
  "x = f(a, -b[1] * (c + 2), when = p and not (q or r) ? true : \"t\")\n"

theorem program_spell_signalText : signalTree.IsExpression ∧ ∃ cs, Layout.prepare? signalText = some cs ∧
    (Lexer.run cs).tokens.map symbol = .name "x" :: .sign .define :: signalTree.spell ++ [.sign .delim] ∧
    ∃ line e, Parser.parse cs = .ok (some (.block none [.define line "x" e])) ∧ e.erased = signalTree.erased := by
  have expr : signalTree.IsExpression := by
    refine ⟨by simp [AreExpressions, IsExpression],
      ⟨⟨⟨?_, _, _, _, rfl, by decide⟩, trivial, trivial⟩, trivial⟩, by decide⟩
    exact ⟨trivial, ⟨⟨trivial, trivial, trivial⟩, _, _, _, rfl, by decide⟩, trivial⟩
  have scanned : (Layout.prepare? signalText).any fun cs => (Lexer.run cs).fault.isNone &&
      (Lexer.run cs).tokens.map symbol = .name "x" :: .sign .define :: signalTree.spell ++ [.sign .delim] := by
    decide +kernel
  obtain ⟨cs, prepared, shown⟩ := (Option.any_eq_true _ _).mp scanned
  simp only [Bool.and_eq_true, Option.isNone_iff_eq_none, decide_eq_true_eq] at shown
  exact ⟨expr, cs, prepared, shown.2, program_spell "x" signalTree (Lexer.run cs) expr shown.1 shown.2⟩

end PineEngine.Script
