import PineEngine.Proofs.Arguments
import PineEngine.Proofs.Windows

/-! # What sources, operators and functions stand for

What the sources, the operators and the functions of whole series give on a market of `n` bars, without a machine: a
single value, or a column with an entry for each bar. What they give is known from what is known of their operands. On
the first bars of a window they give the first entries, if no bars ahead are asked for.
-/

namespace PineEngine

open Script Builtin Computation List Column

namespace Market

def first (k : Nat) (m : Market) : Market :=
  { m with candles := Candles.ofColumns fun f => (m.candles.column f).take k }

/-- A window of `n` bars whose prices are doubles and whose times are of one kind. No window is longer than a machine
    integer can count. -/
structure Bars (n : Nat) (m : Market) : Prop where
  short : n < 2 ^ 63
  length : ∀ f, (m.candles.column f).length = n
  prices : ∀ f, f ≠ .time → ∀ v ∈ m.candles.column f, ∃ x, v = .float x
  times : ∃ kind, kind ≠ .object ∧ ∀ v ∈ m.candles.time, Kind.ofValue v = kind

variable {n k : Nat} {m : Market}

@[simp] theorem column_first (m : Market) (k : Nat) (f : CandleField) :
    (m.first k).candles.column f = (m.candles.column f).take k := by
  cases f <;> rfl

theorem Bars.size (bars : m.Bars n) : m.size = n :=
  bars.length .time

theorem Bars.size_first (bars : m.Bars n) (le : k ≤ n) : (m.first k).size = k := by
  have length := bars.length .time
  show ((m.candles.column .time).take k).length = k
  rw [length_take, length, Nat.min_eq_left le]

end Market

variable {s : Source} {x : Operand}

namespace Machine

variable {columns : List Track} {vs : List Value}

theorem kind_quotient {a v : Value} {x : Float} (h : Value.arith .div a (.float x) = .ok v) :
    Kind.ofValue v = .float := by
  have number (number : a.isNumber) : Kind.ofValue v = .float := by
    rw [Value.arith_numbers .div number rfl] at h
    split at h
    next whole => cases whole
    next =>
      obtain ⟨y, _, z, _, h⟩ := bind₂_eq_ok h
      obtain ⟨w, rfl⟩ := Value.arithFloats_eq_ok h
      rfl
  have machine (h : (Cell.arith .div .float a (.float x)).map Value.cell = .ok v) : Kind.ofValue v = .float := by
    obtain ⟨c, computed, rfl⟩ := map_eq_ok h
    obtain ⟨y, _, computed⟩ := bind_eq_ok computed
    cases computed
    rfl
  cases a with
  | int | bool | float => exact number rfl
  | cell c =>
    cases c with
    | text s => cases h
    | bool | int | float => exact machine h
  | _ => cases h

theorem heads_first {n : Nat} (long : ∀ c ∈ columns, n + 1 ≤ c.length) (k : Nat) :
    ∃ heads, columns.mapM head? = some heads ∧ (columns.map (·.take (k + 1))).mapM head? = some heads := by
  induction columns with
  | nil => exact ⟨[], rfl, rfl⟩
  | cons c columns ih =>
    obtain ⟨heads, whole, part⟩ := ih fun c mem => long c (.tail _ mem)
    cases c with
    | nil => exact absurd (long [] (.head _)) (by simp)
    | cons v c =>
      refine ⟨v :: heads, ?_, ?_⟩
      · simp [mapM_cons, whole]
      · simp only [map_cons, mapM_cons, part]
        rfl

theorem means_first {n k : Nat} (long : ∀ c ∈ columns, n ≤ c.length)
    (le : k ≤ n) (h : meanOf.go columns n = .ok vs) :
    (vs.length = n ∧ ∀ v ∈ vs, Kind.ofValue v = .float) ∧ meanOf.go (columns.map (·.take k)) k = .ok (vs.take k) := by
  induction n generalizing columns k vs with
  | zero =>
    cases Nat.le_zero.mp le
    cases h
    exact ⟨⟨rfl, nofun⟩, rfl⟩
  | succ n ih =>
    obtain ⟨heads, found, found'⟩ := heads_first long (k - 1)
    rw [meanOf.go, found] at h
    obtain ⟨total, summed, v, divided, h⟩ := bind₂_eq_ok h
    obtain ⟨rest, others, h⟩ := bind_eq_ok h
    cases h
    have shorter (c : Track) (mem : c ∈ columns.map (·.drop 1)) : n ≤ c.length := by
      obtain ⟨c', member, rfl⟩ := mem_map.mp mem
      have := long c' member
      simp only [length_drop]
      omega
    obtain ⟨⟨length, kinds⟩, part⟩ := ih shorter (k := k - 1) (by omega) others
    refine ⟨⟨congrArg (· + 1) length, fun w mem => ?_⟩, ?_⟩
    · rcases mem_cons.mp mem with rfl | mem
      · exact kind_quotient divided
      · exact kinds w mem
    · cases k with
      | zero => rfl
      | succ k =>
        rw [Nat.add_sub_cancel] at part found'
        have moved : (columns.map (·.take (k + 1))).map (·.drop 1) = (columns.map (·.drop 1)).map (·.take k) := by
          rw [map_map, map_map]
          refine map_congr_left fun c _ => ?_
          show (c.take (k + 1)).drop 1 = (c.drop 1).take k
          rw [drop_take, Nat.add_sub_cancel]
        rw [meanOf.go, found']
        dsimp only
        rw [summed, moved, part]
        show (Value.arith .div total _ >>= fun v => pure (v :: rest.take k)) = _
        rw [divided]
        rfl

def sourceEntries (m : Market) (s : Source) : Except Fault (List Value) :=
  match sourceFields s with
  | [f] => pure (m.candles.column f)
  | fs => meanOf m fs

theorem source_eq (price : s ≠ .time) : source s = get >>= fun m => (do
    let vs ← sourceEntries m.market s
    pure (.series (← sourceSeries s vs)) : MachineM Value) := by
  cases s with
  | time => exact (price rfl).elim
  | _ => rfl

variable {n k : Nat} {m : Market}

theorem sourceEntries_first (bars : m.Bars n) (le : k ≤ n) (price : s ≠ .time)
    (given : sourceEntries m s = .ok vs) :
    (vs.length = n ∧ ∀ v ∈ vs, Kind.ofValue v = .float) ∧ sourceEntries (m.first k) s = .ok (vs.take k) := by
  have column (f : CandleField) (price : f ≠ .time)
      (given : (.ok (m.candles.column f) : Except Fault (List Value)) = .ok vs) :
      (vs.length = n ∧ ∀ v ∈ vs, Kind.ofValue v = .float) ∧
        (.ok ((m.first k).candles.column f) : Except Fault (List Value)) = .ok (vs.take k) := by
    cases given
    refine ⟨⟨bars.length f, fun v mem => ?_⟩, by rw [Market.column_first]⟩
    obtain ⟨x, rfl⟩ := bars.prices f price v mem
    rfl
  have means (f : CandleField) (fields : List CandleField) (given : meanOf m (f :: fields) = .ok vs) :
      (vs.length = n ∧ ∀ v ∈ vs, Kind.ofValue v = .float) ∧ meanOf (m.first k) (f :: fields) = .ok (vs.take k) := by
    have count : ((f :: fields).headD .time) = f := rfl
    have columns : (f :: fields).map (m.first k).candles.column =
        ((f :: fields).map m.candles.column).map (·.take k) := by
      rw [map_map]
      exact map_congr_left fun g _ => Market.column_first m k g
    rw [meanOf, count, bars.length f] at given
    rw [meanOf, count, columns, Market.column_first, length_take, bars.length f, Nat.min_eq_left le]
    refine means_first (fun c mem => ?_) le given
    obtain ⟨g, _, rfl⟩ := mem_map.mp mem
    exact Nat.le_of_eq (bars.length g).symm
  cases s with
  | «open» => exact column .open nofun given
  | high => exact column .high nofun given
  | low => exact column .low nofun given
  | close => exact column .close nofun given
  | time => exact (price rfl).elim
  | hl2 | hlc3 => exact means .high _ given
  | ohlc4 => exact means .open _ given

end Machine

namespace Machine

def prices (m : Market) (s : Source) : Except Fault Operand := do
  pure (.column (← ofValues (← sourceEntries m s)))

theorem prices_meets (bars : m.Bars n) (price : s ≠ .time) (h : prices m s = .ok x) : x.Meets n none := by
  obtain ⟨vs, entries, c, made, h⟩ := bind₂_eq_ok h
  cases h
  obtain ⟨⟨rfl, kinds⟩, _⟩ := sourceEntries_first bars (Nat.le_refl n) price entries
  refine .column (level_ofValues (fun v mem => ?_) made)
  exact Value.single_of_machine (by rw [kinds v mem]; nofun)

theorem prices_first (bars : m.Bars n) (pos : 1 ≤ k) (le : k ≤ n) (price : s ≠ .time)
    (h : prices m s = .ok x) : x.IsMachine ∧ prices (m.first k) s = .ok (x.first k) := by
  obtain ⟨vs, entries, c, made, h⟩ := bind₂_eq_ok h
  cases h
  obtain ⟨⟨length, kinds⟩, first⟩ := sourceEntries_first bars le price entries
  obtain ⟨kind, made'⟩ :=
    uniform_first (K := .float) nofun kinds pos (ne_nil_of_length_pos (by omega)) made
  refine ⟨kind, ?_⟩
  rw [prices, first]
  show (ofValues (vs.take k) >>= _) = _
  rw [made']
  rfl

end Machine

namespace Script

variable {n k : Nat} {x y : Operand} {c d : Column} {op : BinaryOp}

def BinaryOp.onColumns (op : BinaryOp) (x y : Operand) : Except Fault Column :=
  match op with
  | .index =>
    match x, y with
    | .column c, .single w =>
      match w.whole? with
      | some offset => c.shift offset
      | none => .error (.script .indexNotInteger)
    | .column _, .column _ => .error (.script .indexNotInteger)
    | .single v, _ => .error (.script (.notIndexable v.typeShown))
  | .eq => compare .eq x y
  | .neq => compare .ne x y
  | .gt => compare .gt x y
  | .ge => compare .ge x y
  | .lt => compare .lt x y
  | .le => compare .le x y
  | .add => arith .add x y
  | .sub => arith .sub x y
  | .mul => arith .mul x y
  | .div => arith .div x y
  | .mod => arith .mod x y

def BinaryOp.meaning (op : BinaryOp) : Operand → Operand → Except Fault Operand
  | .single v, .single w => (op.ofNumbers v w).map .single
  | x, y => (op.onColumns x y).map .column

def UnaryOp.onColumn (op : UnaryOp) (c : Column) : Except Fault Column :=
  match op with
  | .plus => .ok c
  | .not => negation c
  | .minus => signs c

def UnaryOp.meaning (op : UnaryOp) : Operand → Except Fault Operand
  | .single v => (op.ofNumber v).map .single
  | .column c => (op.onColumn c).map .column

theorem BinaryOp.meaning_columns (op : BinaryOp) (some : x.isColumn || y.isColumn) :
    op.meaning x y = (op.onColumns x y).map .column := by
  cases x with
  | column c => rfl
  | single v =>
    cases y with
    | column d => rfl
    | single w => cases some

theorem BinaryOp.onColumns_level (left : x.Level n) (right : y.Level n)
    (some : x.isColumn || y.isColumn) (h : op.onColumns x y = .ok c) : c.Level n := by
  cases op with
  | index =>
    unfold onColumns at h
    split at h
    next =>
      split at h
      · split at h
        · exact shift_level left h
        · cases h
      · cases h
      · cases h
    all_goals contradiction
  | eq | neq | gt | ge | lt | le => exact compare_blends _ left right some h
  | add | sub | mul | div | mod => exact arith_blends _ left right some h

theorem BinaryOp.onColumns_first (left : x.Flat n) (right : y.Flat n) (sideX : x.side ≠ .kind .object)
    (sideY : y.side ≠ .kind .object) (either : x.isColumn || y.isColumn)
    (back : op ≠ .index ∨ ∃ w, y = .single w ∧ ∃ offset : Nat, w.whole? = some (offset : Int)) (pos : 1 ≤ k)
    (le : k ≤ n) (h : op.onColumns x y = .ok c) :
    c.cells.kind ≠ .object ∧ op.onColumns (x.first k) (y.first k) = .ok (c.first k) := by
  have pointwise {f : Operand → Operand → Except Fault Column} (pointwise : Pointwise f)
      (h : f x y = .ok c) : c.cells.kind ≠ .object ∧ f (x.first k) (y.first k) = .ok (c.first k) :=
    ⟨pointwise.machine sideX sideY h, (pointwise.first left right either le h).2⟩
  cases op with
  | index =>
    obtain ⟨w, rfl, offset, whole⟩ := back.resolve_left (not_not_intro rfl)
    cases x with
    | single v => cases either
    | column d =>
      simp only [onColumns, Operand.first, whole] at h ⊢
      exact shift_first left (fun object => sideX (congrArg Side.kind object)) pos le offset h
  | eq | neq | gt | ge | lt | le => exact pointwise (compare_pointwise _) h
  | add | sub | mul | div | mod => exact pointwise (arith_pointwise _) h

theorem UnaryOp.onColumn_level {op : UnaryOp} (level : c.Level n) (h : op.onColumn c = .ok d) : d.Level n := by
  cases op with
  | plus =>
    cases h
    exact level
  | not => exact negation_level level h
  | minus => exact signs_level level h

theorem UnaryOp.onColumn_entrywise (op : UnaryOp) : Entrywise op.onColumn := by
  cases op with
  | plus => exact copy_entrywise
  | not => exact negation_entrywise
  | minus => exact signs_entrywise

end Script

/-- Whether a call is one of the functions that give the same at every bar. -/
def Script.callSteady (fn : Function) (args : List (Option Value)) (named : List (String × Option Value)) : Bool :=
  fn == .offset || callLooksBack fn args named

namespace Builtin

open Indicator

def substituteFor : Operand → Except Fault Value
  | .single .absent => .ok (.float 0.0)
  | .single v => .ok v
  | .column _ => .error .operands

def replaced (substitute : Value) : Operand → Except Fault Operand
  | .single v => (orElse substitute v).map .single
  | .column c => (substituted substitute c).map .column

/-- Where a column crosses an operand, with a test for crossings. -/
def crossed (n : Nat) (test : Value × Value → Value × Value → Except Fault Value) (a : String → Operand) :
    Except Fault Column := do
  crossings n test (← columnOf (a "x")) (a "y")

def pivoted (larger : Bool) (a : String → Operand) : Except Fault Column := do
  pivots larger (← columnOf (a "source")) (← wholeOf (a "leftbars")) (← wholeOf (a "rightbars"))

/-- A function that gives a column for `n` bars. -/
def Function.column (n : Nat) (fn : Function) (a : String → Operand) : Except Fault Column :=
  match fn with
  | .barssince => sinceHeld n (a "condition")
  | .valuewhen => do heldValues n (a "condition") (← columnOf (a "source")) (← wholeOf (a "occurrence"))
  | .cross => crossed n crossTest a
  | .crossover => crossed n (turnTest .gt .lt) a
  | .crossunder => crossed n (turnTest .lt .gt) a
  | .offset => do (← columnOf (a "source")).shift (← wholeOf (a "offset"))
  | .pivothigh => pivoted true a
  | .pivotlow => pivoted false a
  | _ => .error .unimplemented

/-- A function of whole series, on `n` bars. -/
def Function.compute (n : Nat) (fn : Function) (a : String → Operand) : Except Fault Operand :=
  match fn with
  | .nz => do replaced (← substituteFor (a "y")) (a "x")
  | fn => (fn.column n a).map .column

/-- The operands of a call of pivots: those for a source and its neighbourhood, or for the neighbourhood alone. -/
def pivotOperands (m : Market) (larger : Bool) (args : List Operand) (named : List (String × Operand)) :
    Except Fault (String → Operand) :=
  match Signature.take (needed "source" (some .series) :: neighbourhood) args named with
  | .ok a => .ok a
  | .error (.argument _) => do
    let a ← Signature.take neighbourhood args named
    let source ← Machine.prices m (if larger then .high else .low)
    pure fun name => if name = "source" then source else a name
  | .error e => .error e

def Function.operands (m : Market) (fn : Function) (args : List Operand) (named : List (String × Operand)) :
    Except Fault (String → Operand) :=
  match fn with
  | .pivothigh => pivotOperands m true args named
  | .pivotlow => pivotOperands m false args named
  | fn => Signature.take fn.signature args named

def Function.meaning (m : Market) (fn : Function) (args : List Operand) (named : List (String × Operand)) :
    Except Fault Operand := do
  fn.compute m.size (← fn.operands m args named)

theorem Function.compute_column {fn : Function} (other : fn ≠ .nz) (n : Nat) (a : String → Operand) :
    fn.compute n a = (fn.column n a).map .column := by
  cases fn <;> first | rfl | exact (other rfl).elim

theorem turnTest_single {opNow opBefore : CompareOp} {now before : Value × Value} {u : Value}
    (tested : turnTest opNow opBefore now before = .ok u) : u.isSingle := by
  obtain ⟨v, first, tested⟩ := bind_eq_ok tested
  split at tested
  · exact Value.compare_single tested
  · cases tested
    exact Value.compare_single first

theorem crossTest_single {now before : Value × Value} {u : Value} (tested : crossTest now before = .ok u) :
    u.isSingle := by
  obtain ⟨_, _, _, _, tested⟩ := bind₂_eq_ok tested
  obtain ⟨_, _, tested⟩ := bind_eq_ok tested
  exact Value.compare_single tested

theorem columnOf_eq_ok {c : Column} (h : columnOf x = .ok c) : x = .column c := by
  cases x <;> cases h
  rfl

/-- The parameters of a function that count the bars around a bar. -/
def Function.widths : Function → List String
  | .pivothigh | .pivotlow => ["leftbars", "rightbars"]
  | _ => []

/-- The parameters of a function that count bars back, or around a bar. -/
def Function.counts : Function → List String
  | .offset => ["offset"]
  | fn => fn.widths

theorem Function.counts_of_widths {fn : Function} {name : String} (mem : name ∈ fn.widths) : name ∈ fn.counts := by
  cases fn <;> first | exact mem | cases mem

section

variable {n k : Nat} {fn : Function} {a : String → Operand} {c : Column} (level : ∀ name, (a name).Level n)

include level

theorem columnOf_level {name : String} (found : columnOf (a name) = .ok c) : c.Level n := by
  have here := level name
  rw [columnOf_eq_ok found] at here
  exact here

theorem column_level (natural : ∀ name ∈ fn.widths, Natural (a name)) (h : fn.column n a = .ok c) : c.Level n := by
  have crosses {test : Value × Value → Value × Value → Except Fault Value}
      (single : ∀ {now before v}, test now before = .ok v → v.isSingle) (h : crossed n test a = .ok c) :
      c.Level n := by
    obtain ⟨_, _, h⟩ := bind_eq_ok h
    exact crossings_level single h
  have pivotal {larger : Bool} (natural : ∀ name ∈ ["leftbars", "rightbars"], Natural (a name))
      (h : pivoted larger a = .ok c) : c.Level n := by
    obtain ⟨d, found, left, count, h⟩ := bind₂_eq_ok h
    obtain ⟨right, count', h⟩ := bind_eq_ok h
    obtain ⟨left, rfl⟩ := natural "leftbars" (by simp) left count
    obtain ⟨right, rfl⟩ := natural "rightbars" (by simp) right count'
    exact pivots_level (columnOf_level level found) h
  cases fn with
  | barssince => exact sinceHeld_level h
  | valuewhen =>
    obtain ⟨d, found, i, _, h⟩ := bind₂_eq_ok h
    exact heldValues_level (columnOf_level level found) h
  | cross => exact crosses crossTest_single h
  | crossover | crossunder => exact crosses turnTest_single h
  | offset =>
    obtain ⟨d, found, i, _, h⟩ := bind₂_eq_ok h
    exact shift_level (columnOf_level level found) h
  | pivothigh | pivotlow => exact pivotal natural h
  | _ => cases h

variable (machine : ∀ name, (a name).IsMachine) (pos : 1 ≤ k) (le : k ≤ n)

include machine pos le

theorem column_first (short : n < 2 ^ 63) (natural : ∀ name ∈ fn.counts, Natural (a name))
    (h : fn.column n a = .ok c) :
    c.cells.kind ≠ .object ∧ fn.column k (fun name => (a name).first k) = .ok (c.first k) := by
  have part {name : String} {c : Column} (found : columnOf (a name) = .ok c) :
      c.Flat n ∧ c.cells.kind ≠ .object ∧ columnOf ((a name).first k) = .ok (c.first k) := by
    have here := machine name
    have flat := (columnOf_level level found).toFlat
    rw [columnOf_eq_ok found] at here ⊢
    exact ⟨flat, here, rfl⟩
  have whole (x : Operand) : wholeOf (x.first k) = wholeOf x := by cases x <;> rfl
  have crosses {test : Value × Value → Value × Value → Except Fault Value} (h : crossed n test a = .ok c) :
      c.cells.kind ≠ .object ∧ crossed k test (fun name => (a name).first k) = .ok (c.first k) := by
    obtain ⟨x, found, h⟩ := bind_eq_ok h
    obtain ⟨flat, _, found'⟩ := part found
    rw [crossed, found']
    exact crossings_first flat (level "y") pos le h
  have pivotal {larger : Bool} (natural : ∀ name ∈ ["leftbars", "rightbars"], Natural (a name))
      (h : pivoted larger a = .ok c) :
      c.cells.kind ≠ .object ∧ pivoted larger (fun name => (a name).first k) = .ok (c.first k) := by
    obtain ⟨d, found, left, count, h⟩ := bind₂_eq_ok h
    obtain ⟨right, count', h⟩ := bind_eq_ok h
    obtain ⟨left, rfl⟩ := natural "leftbars" (by simp) left count
    obtain ⟨right, rfl⟩ := natural "rightbars" (by simp) right count'
    obtain ⟨flat, kind, found'⟩ := part found
    rw [pivoted, found', whole, whole, count, count']
    exact pivots_first flat kind pos le h
  cases fn with
  | barssince => exact sinceHeld_first (level "condition").flat short pos le h
  | valuewhen =>
    obtain ⟨d, found, i, count, h⟩ := bind₂_eq_ok h
    obtain ⟨flat, kind, found'⟩ := part found
    rw [Function.column, found', whole, count]
    exact heldValues_first (level "condition").flat flat kind pos le h
  | cross | crossover | crossunder => exact crosses h
  | offset =>
    obtain ⟨d, found, i, count, h⟩ := bind₂_eq_ok h
    obtain ⟨i, rfl⟩ := natural "offset" (by simp [Function.counts]) i count
    obtain ⟨flat, kind, found'⟩ := part found
    rw [Function.column, found', whole, count]
    exact shift_first flat kind pos le i h
  | pivothigh | pivotlow => exact pivotal natural h
  | _ => cases h

end

section

variable {n k : Nat} {m : Market} {fn : Function} {args : List Operand} {named : List (String × Operand)}
  {a : String → Operand} {known : List (Option Value)} {knownNamed : List (String × Option Value)} {x : Operand}

theorem operands_keep {P : Operand → Prop} (each : ∀ p x y, P x → Parameter.take p x = .ok y → P y)
    (absent : P (.single .absent)) (source : ∀ s x, s ≠ .time → Machine.prices m s = .ok x → P x)
    (positional : ∀ x ∈ args, P x) (byName : ∀ x ∈ named, P x.2) (h : fn.operands m args named = .ok a)
    (name : String) : P (a name) := by
  have taken {sig : Signature} {a : String → Operand} (h : sig.take args named = .ok a) (name : String) :
      P (a name) :=
    take_keeps each absent positional byName h name
  have pivotal {larger : Bool} (h : pivotOperands m larger args named = .ok a) : P (a name) := by
    unfold pivotOperands at h
    split at h
    next here =>
      cases h
      exact taken here name
    next =>
      obtain ⟨b, others, x, prices, h⟩ := bind₂_eq_ok h
      cases h
      dsimp only
      split
      · exact source _ x (by cases larger <;> nofun) prices
      · exact taken others name
    next => cases h
  cases fn with
  | pivothigh | pivotlow => exact pivotal h
  | _ => exact taken h name

theorem operands_first (bars : m.Bars n) (pos : 1 ≤ k) (le : k ≤ n) (h : fn.operands m args named = .ok a) :
    fn.operands (m.first k) (args.map (Operand.first k)) (named.map (Prod.map id (Operand.first k))) =
      .ok fun name => (a name).first k := by
  have taken {sig : Signature} {a : String → Operand} (h : sig.take args named = .ok a) :
      sig.take (args.map (Operand.first k)) (named.map (Prod.map id (Operand.first k))) =
        .ok fun name => (a name).first k := by
    have alike := take_first k sig args named
    rw [h] at alike
    generalize sig.take (args.map (Operand.first k)) (named.map (Prod.map id (Operand.first k))) = y at alike ⊢
    cases alike with
    | ok same => rw [same]
  have pivotal {larger : Bool} (h : pivotOperands m larger args named = .ok a) :
      pivotOperands (m.first k) larger (args.map (Operand.first k)) (named.map (Prod.map id (Operand.first k))) =
        .ok fun name => (a name).first k := by
    unfold pivotOperands at h ⊢
    split at h
    next here =>
      cases h
      rw [taken here]
    next e here =>
      obtain ⟨b, others, x, prices, h⟩ := bind₂_eq_ok h
      cases h
      have refused := take_first k (needed "source" (some .series) :: neighbourhood) args named
      rw [here] at refused
      have again : (do
          let a ← Signature.take neighbourhood (args.map (Operand.first k)) (named.map (Prod.map id (Operand.first k)))
          let source ← Machine.prices (m.first k) (if larger then .high else .low)
          pure fun name => if name = "source" then source else a name) =
            (.ok fun name => Operand.first k (if name = "source" then x else b name) : Except Fault _) := by
        rw [taken others, (Machine.prices_first bars pos le (by cases larger <;> nofun) prices).2]
        refine congrArg Except.ok (funext fun name => ?_)
        split <;> rfl
      generalize Signature.take (needed "source" (some .series) :: neighbourhood) (args.map (Operand.first k))
        (named.map (Prod.map id (Operand.first k))) = y at refused ⊢
      cases refused with
      | argument | error => exact again
    next => cases h
  cases fn with
  | pivothigh | pivotlow => exact pivotal h
  | _ => exact taken h

theorem role_of_steady (steady : callSteady fn known knownNamed) : fn.role = .plain := by
  rcases (Bool.or_eq_true _ _).mp steady with offset | back
  · rw [eq_of_beq offset]
    rfl
  · exact Code.role_of_looksBack back

variable (knows : Knows n known knownNamed args named)

include knows

theorem operands_natural (back : callLooksBack fn known knownNamed) (h : fn.operands m args named = .ok a) :
    ∀ name ∈ fn.counts, Natural (a name) := by
  have counted {sig : Signature} {a : String → Operand} (distinct : (sig.map (·.name)).Nodup)
      (neighbours : ∀ name ∈ ["leftbars", "rightbars"], needed name (some .int) ∈ sig)
      (back : sig.length < known.length || ["leftbars", "rightbars"].all fun name =>
        isCount (knownFor sig known knownNamed name)) (h : sig.take args named = .ok a) :
      ∀ name ∈ ["leftbars", "rightbars"], Natural (a name) := by
    intro name mem
    have few := (take_eq_ok distinct h (neighbours name mem)).1
    rw [← knows.positional.length_eq] at few
    rw [decide_eq_false (Nat.not_lt_of_le few), Bool.false_or] at back
    exact natural_of_count knows distinct h (neighbours name mem)
      (all_eq_true.mp back name mem)
  have pivotal {larger : Bool} (back : [needed "source" (some .series) :: neighbourhood, neighbourhood].all fun sig =>
        sig.length < known.length || ["leftbars", "rightbars"].all fun name =>
          isCount (knownFor sig known knownNamed name)) (h : pivotOperands m larger args named = .ok a) :
      ∀ name ∈ ["leftbars", "rightbars"], Natural (a name) := by
    have each := all_eq_true.mp back
    unfold pivotOperands at h
    split at h
    next here =>
      cases h
      exact counted (by decide) (by simp [neighbourhood]) (each _ (by simp)) here
    next =>
      obtain ⟨b, others, x, _, h⟩ := bind₂_eq_ok h
      cases h
      intro name mem
      have own : name ≠ "source" := by
        rintro rfl
        simp at mem
      dsimp only
      rw [if_neg own]
      exact counted (by decide) (by simp [neighbourhood]) (each _ (by simp)) others name mem
    next => cases h
  cases fn with
  | offset =>
    intro name mem
    cases mem_singleton.mp mem
    exact natural_of_count knows (by decide) h (by simp [Function.signature]) back
  | pivothigh | pivotlow => exact pivotal back h
  | _ => nofun

/-- The operands of `nz`: what may be no number, and a double in its place. -/
theorem operands_nz (back : callLooksBack .nz known knownNamed) (h : Function.nz.operands m args named = .ok a) :
    (∃ v z, a "y" = .single v ∧ substituteFor (.single v) = .ok (.float z) ∧
      substituteOf (knownFor Function.nz.signature known knownNamed "y") = .float z) ∧
    ∃ x, knownFor Function.nz.signature known knownNamed "x" = some x ∧ (a "x").Meets n x := by
  have taken (name : String) (mandatory : Bool) (mem : ⟨name, none, mandatory⟩ ∈ Function.nz.signature) :=
    take_any (p := ⟨name, none, mandatory⟩) rfl (take_eq_ok (by decide) h mem).2
  constructor
  · have same := (taken "y" false (by simp [Function.signature, optional])).1
    have fits := knows.related Function.nz.signature "y"
    rw [callLooksBack] at back
    rw [operandOf] at same
    generalize (Signature.operands Function.nz.signature args named).lookup "y" = found at same fits
    generalize knownFor Function.nz.signature known knownNamed "y" = expected at fits back ⊢
    cases fits with
    | none => exact ⟨.absent, 0.0, same, rfl, rfl⟩
    | some meets =>
      cases meets with
      | column level => cases back
      | number number =>
        split at back
        next none => cases none
        next z some =>
          cases some
          exact ⟨_, z, same, rfl, rfl⟩
        next => cases back
  · obtain ⟨same, present⟩ := taken "x" true (by simp [Function.signature, needed])
    have fits := knows.related Function.nz.signature "x"
    rw [operandOf] at same present
    generalize (Signature.operands Function.nz.signature args named).lookup "x" = found at same present fits
    generalize knownFor Function.nz.signature known knownNamed "x" = expected at fits ⊢
    cases fits with
    | none => exact (present rfl rfl).elim
    | some meets => exact ⟨_, rfl, same ▸ meets⟩

theorem operands_level (bars : m.Bars n) (h : fn.operands m args named = .ok a) (name : String) :
    (a name).Level n :=
  operands_keep (fun _ _ _ => take_level) rfl (fun _ _ price h => (Machine.prices_meets bars price h).level)
    knows.level.1 knows.level.2 h name

theorem meaning_meets (bars : m.Bars n) (steady : callSteady fn known knownNamed)
    (h : fn.meaning m args named = .ok x) :
    x.Meets n (if fn = .nz then nzConstant? known knownNamed else none) := by
  obtain ⟨a, taken, h⟩ := bind_eq_ok h
  rw [bars.size] at h
  by_cases special : fn = .nz
  · subst special
    obtain ⟨⟨v, z, substitute, here, same⟩, u, found, meets⟩ := operands_nz knows steady taken
    rw [Function.compute, substitute, here] at h
    rw [if_pos rfl, nzConstant?, found, same]
    generalize a "x" = y at meets h
    replace h : replaced (.float z) y = .ok x := h
    cases meets with
    | column level =>
      obtain ⟨c, made, rfl⟩ := map_eq_ok h
      exact .column (substituted_level rfl level made)
    | number number =>
      obtain ⟨w, made, rfl⟩ := map_eq_ok h
      obtain ⟨notNumber, tested, made⟩ := bind_eq_ok made
      cases made
      dsimp only
      rw [tested]
      refine .number ?_
      cases notNumber with
      | true => rfl
      | false => exact number
  · rw [Function.compute_column special] at h
    obtain ⟨c, made, rfl⟩ := map_eq_ok h
    rw [if_neg special]
    refine .column (column_level (operands_level knows bars taken) (fun name mem => ?_) made)
    rcases (Bool.or_eq_true _ _).mp steady with offset | back
    · rw [eq_of_beq offset] at mem
      cases mem
    · exact operands_natural knows back taken name (Function.counts_of_widths mem)

theorem meaning_first (bars : m.Bars n) (pos : 1 ≤ k) (le : k ≤ n) (back : callLooksBack fn known knownNamed)
    (machine : ∀ x ∈ args, x.IsMachine) (machineNamed : ∀ x ∈ named, x.2.IsMachine)
    (h : fn.meaning m args named = .ok x) : x.IsMachine ∧
      fn.meaning (m.first k) (args.map (Operand.first k)) (named.map (Prod.map id (Operand.first k))) =
        .ok (x.first k) := by
  obtain ⟨a, taken, h⟩ := bind_eq_ok h
  have kept : ∀ name, (a name).IsMachine :=
    operands_keep (fun _ _ _ => take_machine) trivial
      (fun _ _ price h => (Machine.prices_first bars pos le price h).1) machine machineNamed taken
  rw [bars.size] at h
  rw [Function.meaning, operands_first bars pos le taken, bars.size_first le]
  by_cases special : fn = .nz
  · subst special
    obtain ⟨⟨v, z, substitute, here, _⟩, u, _, meets⟩ := operands_nz knows back taken
    have computes {n : Nat} (b : String → Operand) (same : b "y" = .single v) :
        Function.nz.compute n b = replaced (.float z) (b "x") := by
      rw [Function.compute, same, here]
      rfl
    have machine := kept "x"
    rw [computes a substitute] at h
    change x.IsMachine ∧ Function.nz.compute k (fun name => (a name).first k) = .ok (x.first k)
    rw [computes (fun name => (a name).first k) (congrArg (Operand.first k) substitute)]
    generalize a "x" = y at meets h machine ⊢
    cases meets with
    | column level =>
      obtain ⟨c, made, rfl⟩ := map_eq_ok h
      obtain ⟨kind, first⟩ := substituted_first level.toFlat machine pos le made
      refine ⟨kind, ?_⟩
      rw [Operand.first, replaced, first]
      rfl
    | number number =>
      obtain ⟨w, _, rfl⟩ := map_eq_ok h
      exact ⟨trivial, h⟩
  · rw [Function.compute_column special] at h
    obtain ⟨c, made, rfl⟩ := map_eq_ok h
    obtain ⟨kind, first⟩ := column_first (operands_level knows bars taken) kept pos le bars.short
      (operands_natural knows back taken) made
    refine ⟨kind, ?_⟩
    change fn.compute k (fun name => (a name).first k) = _
    rw [Function.compute_column special, first]
    rfl

end

end Builtin

end PineEngine
