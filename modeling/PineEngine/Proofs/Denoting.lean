import PineEngine.Proofs.Meanings

/-! # What code stands for

`Code.denote` tells without a machine what code over prices comes to on a market: a number, or a column with an entry for
each bar. It is meant for `Code.plain`: expressions without assignments and loops, whose calls are of functions of whole
series, and whose choices are inline or on a number. Which of them stand for numbers is known from the code, and so is
for which nodes evaluation keeps a register. Code that looks back only stands for the first entries of its column on the
first bars of a window.
-/

namespace PineEngine

variable {n : Nat} {found : Option Column} {isAnd : Bool}

open Script Builtin Computation Column Operand

/-- A column of conditions, combined with the ones before it. -/
def Column.join (isAnd : Bool) (c : Column) : Option Column → Except Fault Column
  | none => .ok c
  | some d => logic isAnd (.column c.finite) (.column d)

namespace Script.Code

mutual

def plain : Code → Bool
  | .block _ items => !items.isEmpty && allPlain items
  | .literal _ v => v.isNumber
  | .anyOf _ items | .allOf _ items => allPlain items
  | .binary _ _ a b => a.plain && b.plain
  | .unary _ _ a => a.plain
  | .builtin _ _ _ (.source s) => s != .time
  | .variable _ _ target => target.plain
  | .call _ _ fn args named =>
    allPlain args && namedPlain named && callSteady fn (constants args) (namedConstants named)
  | .choice _ _ c y (some e) inline => c.plain && y.plain && e.plain && (c.constant?.isSome || inline)
  | .define _ _ _ e => e.plain
  | .inlined _ _ args body => allPlain args && body.plain
  | _ => false

def allPlain : List Code → Bool
  | [] => true
  | c :: rest => c.plain && allPlain rest

def namedPlain : List (String × Code) → Bool
  | [] => true
  | (_, c) :: rest => c.plain && namedPlain rest

end

mutual

def denote (m : Market) : Code → Except Fault Operand
  | .block _ items => denoteLast m (.single .absent) items
  | .literal _ v => .ok (.single v)
  | .anyOf _ items => denoteConnected m false none items
  | .allOf _ items => denoteConnected m true none items
  | .binary _ op a b => do op.meaning (← a.denote m) (← b.denote m)
  | .unary _ op a => do op.meaning (← a.denote m)
  | .builtin _ _ _ (.source s) => Machine.prices m s
  | .variable _ _ target => target.denote m
  | .call _ _ fn args named => do fn.meaning m (← denoteAll m args) (← denoteNamed m named)
  | .choice _ _ c y (some e) _ => do
    match ← c.denote m with
    | .column cond =>
      let first ← (← y.denote m).asColumn m.size
      let other ← (← e.denote m).asColumn m.size
      (replaceUnless cond.finite other (List.range m.size) first).map .column
    | .single v => if ← Machine.conditionHolds v then y.denote m else e.denote m
  | .define _ _ _ e => e.denote m
  | .inlined _ _ args body => do
    let _ ← denoteLast m (.single .absent) args
    body.denote m
  | _ => .error .unimplemented

def denoteLast (m : Market) (last : Operand) : List Code → Except Fault Operand
  | [] => .ok last
  | c :: rest => do denoteLast m (← c.denote m) rest

def denoteAll (m : Market) : List Code → Except Fault (List Operand)
  | [] => .ok []
  | c :: rest => do
    let x ← c.denote m
    let xs ← denoteAll m rest
    pure (x :: xs)

def denoteNamed (m : Market) : List (String × Code) → Except Fault (List (String × Operand))
  | [] => .ok []
  | (name, c) :: rest => do
    let x ← c.denote m
    let xs ← denoteNamed m rest
    pure ((name, x) :: xs)

/-- What conditions in a row stand for; `found` is the column of those before. -/
def denoteConnected (m : Market) (isAnd : Bool) (found : Option Column) : List Code → Except Fault Operand
  | [] => .ok (found.elim (.single (.bool isAnd)) .column)
  | c :: rest => do
    match ← c.denote m with
    | .column x => denoteConnected m isAnd (some (← x.join isAnd found)) rest
    | .single v => if v.isTrue == isAnd then denoteConnected m isAnd found rest else .ok (.single v)

end

mutual

/-- The nodes for which evaluation keeps a register, the latest first. -/
def keeps : Code → List (Option Nat)
  | .block _ items => allKeep items
  | .anyOf _ items => connectedKeep false items
  | .allOf _ items => connectedKeep true items
  | .binary _ _ a b => b.keeps ++ a.keeps
  | .unary _ _ a => a.keeps
  | .variable _ _ target => target.keeps
  | .call _ _ _ args named => namedKeep named ++ allKeep args
  | .choice _ id c y (some e) _ =>
    match c.constant?.map Machine.conditionHolds with
    | none => some id :: (e.keeps ++ y.keeps) ++ c.keeps
    | some (.ok true) => y.keeps ++ c.keeps
    | some _ => e.keeps ++ c.keeps
  | .define _ id _ e => some id :: e.keeps
  | .inlined _ _ args body => body.keeps ++ allKeep args
  | _ => []

def allKeep : List Code → List (Option Nat)
  | [] => []
  | c :: rest => allKeep rest ++ c.keeps

def namedKeep : List (String × Code) → List (Option Nat)
  | [] => []
  | (_, c) :: rest => namedKeep rest ++ c.keeps

/-- The nodes among conditions in a row, up to the one that decides. -/
def connectedKeep (isAnd : Bool) : List Code → List (Option Nat)
  | [] => []
  | c :: rest => (if c.constant?.all (·.isTrue == isAnd) then connectedKeep isAnd rest else []) ++ c.keeps

end

theorem allPlain_iff (items : List Code) : allPlain items ↔ ∀ c ∈ items, c.plain := by
  induction items with
  | nil => simp [allPlain]
  | cons c rest ih => simp [allPlain, ih]

theorem namedPlain_iff (named : List (String × Code)) : namedPlain named ↔ ∀ c ∈ named.map (·.2), c.plain := by
  induction named with
  | nil => simp [namedPlain]
  | cons entry rest ih => simp [namedPlain, ih]

theorem plain_child {c d : Code} (plain : c.plain) (child : c.Child d) : d.plain := by
  cases c with
  | choice line id c y no inline => cases no <;> grind [Code.plain, Child, children]
  | list | loop | assign => cases plain
  | _ => grind [Code.plain, Child, children, allPlain_iff, namedPlain_iff]

theorem annotate_plain (a : Annotations) (c : Code) (plain : c.plain) : c.annotate a = a := by
  refine annotate_keeps (P := (· = a)) (K := (·.plain)) plain_child (fun plain role _ => ?_) c plain rfl
  simp only [Code.plain, Bool.and_eq_true] at plain
  exact (role (role_of_steady plain.2)).elim

theorem annotateAll_plain (a : Annotations) (cs : List Code) (plain : allPlain cs) : annotateAll a cs = a := by
  induction cs with
  | nil => rfl
  | cons c cs ih =>
    simp only [allPlain, Bool.and_eq_true] at plain
    rw [annotateAll, annotate_plain a c plain.1, ih plain.2]

end Script.Code

theorem join_level {c d : Column} (level : c.Level n)
    (before : ∀ e, found = some e → e.Level n) (h : c.join isAnd found = .ok d) : d.Level n := by
  cases found with
  | none =>
    cases h
    exact level
  | some e => exact logic_blends isAnd (a := .column _) (b := .column e) (finite_level level) (before e rfl) rfl h

namespace Script

theorem BinaryOp.meaning_meets {op : BinaryOp} {a b : Option Value} {x y z : Operand} (left : x.Meets n a)
    (right : y.Meets n b) (h : op.meaning x y = .ok z) : z.Meets n (op.constant? a b) := by
  have columns (some : x.isColumn || y.isColumn) : z.Meets n none := by
    rw [op.meaning_columns some] at h
    obtain ⟨c, made, rfl⟩ := map_eq_ok h
    exact .column (onColumns_level left.level right.level some made)
  cases left with
  | column => exact columns rfl
  | number number =>
    cases right with
    | column => exact columns rfl
    | number number' =>
      obtain ⟨v, made, rfl⟩ := map_eq_ok h
      rw [constant?, made]
      exact .number (ofNumbers_number number number' made)

theorem UnaryOp.meaning_meets {op : UnaryOp} {a : Option Value} {x z : Operand} (meets : x.Meets n a)
    (h : op.meaning x = .ok z) : z.Meets n (a.bind fun v => (op.ofNumber v).toOption) := by
  cases meets with
  | column level =>
    obtain ⟨c, made, rfl⟩ := map_eq_ok h
    exact .column (onColumn_level level made)
  | number number =>
    obtain ⟨v, made, rfl⟩ := map_eq_ok h
    rw [Option.bind_some, made]
    exact .number (ofNumber_number number made)

namespace Code

theorem allLookBack_iff (items : List Code) : allLookBack items ↔ ∀ c ∈ items, c.looksBack := by
  induction items with
  | nil => simp [allLookBack]
  | cons c rest ih => simp [allLookBack, ih]

theorem namedLookBack_iff (named : List (String × Code)) :
    namedLookBack named ↔ ∀ c ∈ named.map (·.2), c.looksBack := by
  induction named with
  | nil => simp [namedLookBack]
  | cons entry rest ih => simp [namedLookBack, ih]

theorem looksBack_child {c d : Code} (back : c.looksBack) (child : c.Child d) : d.looksBack := by
  cases c with
  | choice line id c y no inline => cases no <;> grind [looksBack, Child, children]
  | list | loop | assign => cases back
  | _ => grind [looksBack, Child, children, allLookBack_iff, namedLookBack_iff]

theorem plain_of_looksBack (c : Code) (back : c.looksBack) : c.plain := by
  induction c using children_induction with
  | step c ih =>
    have parts (d : Code) (child : c.Child d) : d.plain := ih d child (looksBack_child back child)
    clear ih
    cases c with
    | choice line id c y no inline => cases no <;> simp_all [looksBack, Code.plain, Child, children]; tauto
    | builtin line id name v => cases v <;> exact back
    | call id name fn args named =>
      simp only [looksBack, Code.plain, Bool.and_eq_true, allPlain_iff, namedPlain_iff] at back ⊢
      exact ⟨⟨fun d mem => parts d (List.mem_append_left _ mem), fun d mem =>
        parts d (List.mem_append_right _ mem)⟩, Bool.or_eq_true_iff.mpr (.inr back.2)⟩
    | list | loop | assign => cases back
    | _ => simp_all [looksBack, Code.plain, Child, children, allPlain_iff, or_imp, forall_and]

theorem allPlain_of_looksBack (cs : List Code) (back : allLookBack cs) : allPlain cs :=
  (allPlain_iff cs).mpr fun c mem => plain_of_looksBack c ((allLookBack_iff cs).mp back c mem)
end Code

theorem side_of_machine {known : Option Value} {x : Operand} (meets : x.Meets n known)
    (machine : x.IsMachine) : x.side ≠ .kind .object := by
  cases meets with
  | column level => exact fun object => machine (Side.kind.inj object)
  | @number v number => cases v <;> cases number <;> nofun

section

variable {n k : Nat} {m : Market} {known known' : Option Value} {x y z : Operand}

theorem BinaryOp.meaning_first {op : BinaryOp} (left : x.Meets n known) (right : y.Meets n known')
    (machine : x.IsMachine) (machine' : y.IsMachine)
    (back : op ≠ .index ∨ ∃ offset : Nat, known'.bind Value.whole? = some (offset : Int)) (pos : 1 ≤ k) (le : k ≤ n)
    (h : op.meaning x y = .ok z) : z.IsMachine ∧ op.meaning (x.first k) (y.first k) = .ok (z.first k) := by
  have columns (either : x.isColumn || y.isColumn) :
      z.IsMachine ∧ op.meaning (x.first k) (y.first k) = .ok (z.first k) := by
    rw [op.meaning_columns either] at h
    obtain ⟨c, made, rfl⟩ := map_eq_ok h
    have natural : op ≠ .index ∨ ∃ w, y = .single w ∧ ∃ offset : Nat, w.whole? = some (offset : Int) := by
      refine back.imp_right fun ⟨offset, whole⟩ => ?_
      cases right with
      | column => cases whole
      | number => exact ⟨_, rfl, offset, whole⟩
    obtain ⟨kind, first⟩ := onColumns_first left.level.flat right.level.flat (side_of_machine left machine)
      (side_of_machine right machine') either natural pos le made
    refine ⟨kind, ?_⟩
    rw [op.meaning_columns (by rwa [isColumn_first, isColumn_first]), first]
    rfl
  cases left with
  | column => exact columns rfl
  | number =>
    cases right with
    | column => exact columns rfl
    | number =>
      obtain ⟨v, _, rfl⟩ := map_eq_ok h
      exact ⟨trivial, h⟩

theorem UnaryOp.meaning_first {op : UnaryOp} (meets : x.Meets n known) (machine : x.IsMachine) (le : k ≤ n)
    (h : op.meaning x = .ok z) : z.IsMachine ∧ op.meaning (x.first k) = .ok (z.first k) := by
  cases meets with
  | column level =>
    obtain ⟨c, made, rfl⟩ := map_eq_ok h
    obtain ⟨_, kind, first⟩ := op.onColumn_entrywise.first level.toFlat machine le made
    refine ⟨kind, ?_⟩
    rw [Operand.first, meaning, first]
    rfl
  | number =>
    obtain ⟨v, _, rfl⟩ := map_eq_ok h
    exact ⟨trivial, h⟩

end

def Found (n : Nat) (more : Prop) (found : Option Column) : Prop :=
  ∀ c, found = some c → c.Level n ∧ (more → c.cells.kind ≠ .object)

theorem join_first {k : Nat} {c d : Column} {more : Prop} (level : c.Level n)
    (machine : c.cells.kind ≠ .object) (before : Found n more found) (holds : more) (le : k ≤ n) (h : c.join isAnd found = .ok d) :
    d.cells.kind ≠ .object ∧ (c.first k).join isAnd (found.map (Column.first k)) = .ok (d.first k) := by
  cases found with
  | none =>
    cases h
    exact ⟨machine, rfl⟩
  | some e =>
    obtain ⟨level', machine'⟩ := before e rfl
    replace machine' := machine' holds
    have sides {c : Column} (machine : c.cells.kind ≠ .object) : (Operand.column c).side ≠ .kind .object :=
      fun object => machine (Side.kind.inj object)
    have combined := (logic_pointwise isAnd).first (a := .column c.finite) (b := .column e)
      (finite_flat level.toFlat) level'.toFlat rfl le h
    refine ⟨(logic_pointwise isAnd).machine (a := .column c.finite) (b := .column e)
      (sides (by rwa [kind_finite])) (sides machine') h, ?_⟩
    rw [Option.map_some, Column.join, finite_first]
    exact combined.2

namespace Code

variable {n k : Nat} {m : Market}

theorem natural_of_any {i : Option Int} (h : i.any (0 ≤ ·)) : ∃ j : Nat, i = some (j : Int) := by
  cases i with
  | none => cases h
  | some i =>
    obtain ⟨j, rfl⟩ := Int.eq_ofNat_of_zero_le (of_decide_eq_true h)
    exact ⟨j, rfl⟩

structure Part (n k : Nat) (m : Market) : Prop where
  bars : m.Bars n
  positive : 1 ≤ k
  le : k ≤ n

/-- What code comes to: it meets what is known of the code, and if there is more to be shown, it comes to its first
    entries on the first bars. -/
structure Settles (n k : Nat) (more : Prop) (known : Option Value) (part : Except Fault Operand) (x : Operand) : Prop where
  meets : x.Meets n known
  first : more → x.IsMachine ∧ part = .ok (x.first k)

section

variable {more : Prop} (bars : m.Bars n) (part : more → Part n k m)

include bars part

set_option linter.unusedSectionVars false in
mutual

theorem denote_settles (c : Code) (plain : c.plain) (back : more → c.looksBack) {x : Operand}
    (given : c.denote m = .ok x) : Settles n k more c.constant? (c.denote (m.first k)) x := by
  cases c with
  | block line items =>
    simp only [Code.plain, looksBack, Bool.and_eq_true] at plain back
    obtain ⟨meets, first⟩ := denoteLast_settles items plain.2 (fun h => (back h).2) (.single .absent) none
      (fun _ => trivial) given
    exact ⟨meets fun none => by simp [none] at plain, first⟩
  | literal line v =>
    cases given
    exact ⟨.number plain, fun _ => ⟨trivial, rfl⟩⟩
  | anyOf line items => exact denoteConnected_settles false items plain back none nofun given
  | allOf line items => exact denoteConnected_settles true items plain back none nofun given
  | binary line op a b =>
    simp only [Code.plain, looksBack, Bool.and_eq_true] at plain back
    obtain ⟨y, left, z, right, given⟩ := bind₂_eq_ok given
    have settlesA := denote_settles a plain.1 (fun h => (back h).1.1) left
    have settlesB := denote_settles b plain.2 (fun h => (back h).1.2) right
    refine ⟨BinaryOp.meaning_meets settlesA.meets settlesB.meets given, fun h => ?_⟩
    obtain ⟨machine, left'⟩ := settlesA.first h
    obtain ⟨machine', right'⟩ := settlesB.first h
    have natural : op ≠ .index ∨ ∃ offset : Nat, b.constant?.bind Value.whole? = some (offset : Int) :=
      ((Bool.or_eq_true _ _).mp (back h).2).imp bne_iff_ne.mp natural_of_any
    rw [denote, left', right']
    exact BinaryOp.meaning_first settlesA.meets settlesB.meets machine machine' natural (part h).positive (part h).le
      given
  | unary line op a =>
    obtain ⟨y, here, given⟩ := bind_eq_ok given
    have settles := denote_settles a plain back here
    refine ⟨UnaryOp.meaning_meets settles.meets given, fun h => ?_⟩
    obtain ⟨machine, here'⟩ := settles.first h
    rw [denote, here']
    exact UnaryOp.meaning_first settles.meets machine (part h).le given
  | builtin line id name v =>
    cases v with
    | source s =>
      have price : s ≠ .time := by simpa [Code.plain] using plain
      exact ⟨Machine.prices_meets bars price given, fun h =>
        Machine.prices_first bars (part h).positive (part h).le price given⟩
    | _ => cases plain
  | «variable» line name target => exact denote_settles target plain back given
  | call id name fn args named =>
    simp only [Code.plain, looksBack, Bool.and_eq_true] at plain back
    obtain ⟨xs, positional, ys, byName, given⟩ := bind₂_eq_ok given
    obtain ⟨meets, first⟩ := denoteAll_settles args plain.1.1 (fun h => (back h).1.1) positional
    obtain ⟨meets', first'⟩ := denoteNamed_settles named plain.1.2 (fun h => (back h).1.2) byName
    have knows : Knows n (constants args) (namedConstants named) xs ys := ⟨meets, meets'⟩
    refine ⟨constant_call id name fn args named ▸ meaning_meets knows bars plain.2 given, fun h => ?_⟩
    rw [denote, (first h).2, (first' h).2]
    exact meaning_first knows bars (part h).positive (part h).le (back h).2 (first h).1 (first' h).1 given
  | choice line id c y no inline =>
    cases no with
    | none => cases plain
    | some e =>
      simp only [Code.plain, looksBack, Bool.and_eq_true] at plain back
      obtain ⟨cond, asked, given⟩ := bind_eq_ok given
      obtain ⟨meets, first⟩ := denote_settles c plain.1.1.1 (fun h => (back h).1.1.1) asked
      have takes {x : Operand} := denote_settles y plain.1.1.2 (fun h => (back h).1.1.2) (x := x)
      have other {x : Operand} := denote_settles e plain.1.2 (fun h => (back h).1.2) (x := x)
      have inlined (h : more) := (back h).2
      rw [constant?, denote]
      generalize c.constant? = known at meets inlined
      cases meets with
      | @column cond level =>
        rw [bars.size] at given
        obtain ⟨y', chosen, d, whole, given⟩ := bind₂_eq_ok given
        obtain ⟨e', second, other', whole', given⟩ := bind₂_eq_ok given
        obtain ⟨d', made, rfl⟩ := map_eq_ok given
        obtain ⟨meetsY, firstY⟩ := takes chosen
        obtain ⟨meetsE, firstE⟩ := other second
        have levelY := asColumn_level meetsY.level whole
        have levelE := asColumn_level meetsE.level whole'
        refine ⟨.column (replaceUnless_level levelY levelE made), fun h => ?_⟩
        obtain ⟨machine, chosen'⟩ := firstY h
        obtain ⟨kind, part'⟩ := asColumn_first meetsY.level (part h).positive (part h).le whole
        obtain ⟨_, part''⟩ := asColumn_first meetsE.level (part h).positive (part h).le whole'
        obtain ⟨kind', made'⟩ := replaceUnless_first (finite_flat level.toFlat) levelE.toFlat levelY.toFlat (part h).le
          made
        refine ⟨?_, ?_⟩
        · show d'.cells.kind ≠ .object
          have inlined := inlined h
          rw [Option.isSome_none, Bool.false_or, Bool.and_eq_true] at inlined
          generalize y.constant? = known at meetsY inlined
          rw [kind', kind]
          cases meetsY with
          | column => exact machine
          | number => exact bne_iff_ne.mp inlined.2
        · rw [← finite_first] at made'
          simp only [(first h).2, Operand.first, chosen', (firstE h).2, bars.size_first (part h).le]
          show ((y'.first k).asColumn k >>= fun d => (e'.first k).asColumn k >>= fun other =>
            (replaceUnless (cond.first k).finite other (List.range k) d).map Operand.column) = _
          rw [part', part'']
          exact congrArg (Except.map Operand.column) made'
      | @number v number =>
        obtain ⟨holds, told, given⟩ := bind_eq_ok given
        refine ⟨?_, fun h => ?_⟩
        · rw [choiceConstant?, Option.map_some, told]
          cases holds with
          | true => exact (takes given).meets
          | false => exact (other given).meets
        · rw [(first h).2]
          show x.IsMachine ∧ (Machine.conditionHolds _ >>= fun holds => if holds then y.denote (m.first k)
            else e.denote (m.first k)) = _
          rw [told]
          cases holds with
          | true => exact (takes given).first h
          | false => exact (other given).first h
  | define line id name e => exact denote_settles e plain back given
  | inlined name params args body =>
    simp only [Code.plain, looksBack, Bool.and_eq_true] at plain back
    obtain ⟨_, ran, given⟩ := bind_eq_ok given
    obtain ⟨meets, first⟩ := denote_settles body plain.2 (fun h => (back h).2) given
    refine ⟨meets, fun h => ⟨(first h).1, ?_⟩⟩
    obtain ⟨_, ran'⟩ := (denoteLast_settles args plain.1 (fun h => (back h).1) (.single .absent) none (fun _ => trivial)
      ran).2 h
    show (denoteLast (m.first k) ((Operand.single .absent).first k) args >>= _) = _
    rw [ran']
    exact (first h).2
  | list | loop | assign => cases plain

theorem denoteLast_settles (cs : List Code) (plain : allPlain cs) (back : more → allLookBack cs) (last : Operand)
    (known : Option Value) (machine : more → last.IsMachine) {x : Operand} (h : denoteLast m last cs = .ok x) :
    ((cs = [] → last.Meets n known) → x.Meets n (lastConstant? known cs)) ∧
      (more → x.IsMachine ∧ denoteLast (m.first k) (last.first k) cs = .ok (x.first k)) := by
  cases cs with
  | nil =>
    cases h
    exact ⟨fun before => before rfl, fun h => ⟨machine h, rfl⟩⟩
  | cons c rest =>
    simp only [allPlain, allLookBack, Bool.and_eq_true] at plain back
    obtain ⟨y, here, h⟩ := bind_eq_ok h
    obtain ⟨meets, first⟩ := denote_settles c plain.1 (fun h => (back h).1) here
    obtain ⟨meets', first'⟩ := denoteLast_settles rest plain.2 (fun h => (back h).2) y c.constant? (fun h => (first h).1) h
    refine ⟨fun _ => meets' fun _ => meets, fun h => ?_⟩
    rw [denoteLast, (first h).2]
    exact first' h

theorem denoteAll_settles (cs : List Code) (plain : allPlain cs) (back : more → allLookBack cs) {xs : List Operand}
    (h : denoteAll m cs = .ok xs) : List.Forall₂ (Meets n) (constants cs) xs ∧
      (more → (∀ x ∈ xs, x.IsMachine) ∧ denoteAll (m.first k) cs = .ok (xs.map (Operand.first k))) := by
  cases cs with
  | nil =>
    cases h
    exact ⟨.nil, fun _ => ⟨nofun, rfl⟩⟩
  | cons c rest =>
    simp only [allPlain, allLookBack, Bool.and_eq_true] at plain back
    obtain ⟨y, here, ys, others, h⟩ := bind₂_eq_ok h
    cases h
    obtain ⟨meets, first⟩ := denote_settles c plain.1 (fun h => (back h).1) here
    obtain ⟨meets', first'⟩ := denoteAll_settles rest plain.2 (fun h => (back h).2) others
    refine ⟨.cons meets meets', fun h => ⟨List.forall_mem_cons.mpr ⟨(first h).1, (first' h).1⟩, ?_⟩⟩
    rw [denoteAll, (first h).2, (first' h).2]
    rfl

theorem denoteNamed_settles (cs : List (String × Code)) (plain : namedPlain cs) (back : more → namedLookBack cs)
    {xs : List (String × Operand)} (h : denoteNamed m cs = .ok xs) :
    List.Forall₂ (fun x y => x.1 = y.1 ∧ y.2.Meets n x.2) (namedConstants cs) xs ∧
      (more → (∀ x ∈ xs, x.2.IsMachine) ∧ denoteNamed (m.first k) cs = .ok (xs.map (Prod.map id (Operand.first k)))) := by
  match cs with
  | [] =>
    cases h
    exact ⟨.nil, fun _ => ⟨nofun, rfl⟩⟩
  | (name, c) :: rest =>
    simp only [namedPlain, namedLookBack, Bool.and_eq_true] at plain back
    obtain ⟨y, here, ys, others, h⟩ := bind₂_eq_ok h
    cases h
    obtain ⟨meets, first⟩ := denote_settles c plain.1 (fun h => (back h).1) here
    obtain ⟨meets', first'⟩ := denoteNamed_settles rest plain.2 (fun h => (back h).2) others
    refine ⟨.cons ⟨rfl, meets⟩ meets', fun h => ⟨List.forall_mem_cons.mpr ⟨(first h).1, (first' h).1⟩, ?_⟩⟩
    rw [denoteNamed, (first h).2, (first' h).2]
    rfl

theorem denoteConnected_settles (isAnd : Bool) (cs : List Code) (plain : allPlain cs) (back : more → allLookBack cs)
    (found : Option Column) (before : Found n more found) {x : Operand} (h : denoteConnected m isAnd found cs = .ok x) :
    Settles n k more (connectedConstant? isAnd found.isSome cs)
      (denoteConnected (m.first k) isAnd (found.map (Column.first k)) cs) x := by
  cases cs with
  | nil =>
    cases h
    cases found with
    | none => exact ⟨.number rfl, fun _ => ⟨trivial, rfl⟩⟩
    | some c => exact ⟨.column (before c rfl).1, fun h => ⟨(before c rfl).2 h, rfl⟩⟩
  | cons c rest =>
    simp only [allPlain, allLookBack, Bool.and_eq_true] at plain back
    obtain ⟨y, here, h⟩ := bind_eq_ok h
    obtain ⟨meets, first⟩ := denote_settles c plain.1 (fun h => (back h).1) here
    rw [connectedConstant?, denoteConnected]
    generalize c.constant? = known at meets
    cases meets with
    | @column c level =>
      obtain ⟨d, joined, h⟩ := bind_eq_ok h
      have after : Found n more (some d) := by
        intro e same
        cases same
        exact ⟨join_level level (fun e same => (before e same).1) joined, fun h =>
          (join_first level (first h).1 before h (part h).le joined).1⟩
      obtain ⟨meets, rest⟩ := denoteConnected_settles isAnd rest plain.2 (fun h => (back h).2) _ after h
      refine ⟨meets, fun h => ?_⟩
      rw [(first h).2]
      show x.IsMachine ∧ ((c.first k).join isAnd (found.map (Column.first k)) >>= _) = _
      rw [(join_first level (first h).1 before h (part h).le joined).2]
      exact rest h
    | @number v number =>
      dsimp only at h
      rw [connectConstant?]
      split at h
      next goesOn =>
        obtain ⟨meets, rest⟩ := denoteConnected_settles isAnd rest plain.2 (fun h => (back h).2) _ before h
        rw [if_pos goesOn]
        refine ⟨meets, fun h => ?_⟩
        rw [(first h).2]
        show x.IsMachine ∧ (if v.isTrue == isAnd then _ else _) = _
        rw [if_pos goesOn]
        exact rest h
      next stops =>
        cases h
        rw [if_neg stops]
        refine ⟨.number number, fun h => ⟨trivial, ?_⟩⟩
        rw [(first h).2]
        show (if v.isTrue == isAnd then _ else _) = _
        rw [if_neg stops]
        rfl

end

omit part in
theorem denote_meets (c : Code) (plain : c.plain) {x : Operand} (given : c.denote m = .ok x) : x.Meets n c.constant? :=
  (denote_settles (k := n) bars False.elim c plain False.elim given).meets

end

theorem denote_first (part : Part n k m) (c : Code) (back : c.looksBack) {x : Operand} (given : c.denote m = .ok x) :
    x.IsMachine ∧ c.denote (m.first k) = .ok (x.first k) :=
  (denote_settles part.bars (fun _ => part) c (plain_of_looksBack c back) (fun _ => back) given).first trivial

end Code

end Script

end PineEngine
