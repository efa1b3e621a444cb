import PineEngine.Proofs.Rounding
import PineEngine.Value.Entry

/-! # Keys

Numbers of different kinds are the same key if their exact values are: one, the double one and truth are one key.
A finite double is a whole number of units of the least double, and two finite doubles are equal just if they are
the same number of units. What is not a number is no key again, not even its own.

So being the same key means to stand for the same thing, and is symmetric and transitive.
-/

namespace PineEngine.Decimal

open Float.Model Float.Model.UnpackedFloat

section Fields

variable {b : BitVec Format.binary64.numBits}

theorem toNat_unpackExponent : (unpackExponent b).toNat = b.toNat / powTwo 52 % powTwo 11 := by
  simp only [unpackExponent, BitVec.toNat_cast, BitVec.extractLsb_toNat, Nat.shiftRight_eq_div_pow]
  rfl

theorem toNat_unpackMantissa : (unpackMantissa b).toNat = b.toNat % powTwo 52 := by
  simp only [unpackMantissa, BitVec.toNat_cast, BitVec.extractLsb_toNat, Nat.shiftRight_eq_div_pow]
  simp [powTwo]

theorem unpackSign_eq_zero_iff : unpackSign b = 0#1 ↔ ¬ powTwo 63 ≤ b.toNat := by
  have low : b.toNat < 2 ^ 64 := b.isLt
  have place : (unpackSign b).toNat = b.toNat / 2 ^ 63 % 2 := by
    show (BitVec.cast _ (BitVec.extractLsb 63 63 b)).toNat = _
    rw [BitVec.toNat_cast, BitVec.extractLsb_toNat, Nat.shiftRight_eq_div_pow]
  have whole : powTwo 63 = 2 ^ 63 := rfl
  rw [BitVec.toNat_eq, place, whole]
  simp only [BitVec.toNat_ofNat]
  omega

theorem toNat_leadingOne {v : BitVec 52} : (1#1 ++ v).toNat = v.toNat + powTwo 52 := by
  rw [BitVec.toNat_append, ← Nat.shiftLeft_add_eq_or_of_lt v.isLt, Nat.shiftLeft_eq, Nat.add_comm]
  simp [powTwo]

end Fields

/-- A magnitude with the exponent of a double: only with the least one is the leading bit missing. -/
structure Normal (mantissa : Nat) (exponent : Int) : Prop where
  mantissa_lt : mantissa < powTwo 53
  least_le : -1074 ≤ exponent
  leading : exponent ≠ -1074 → powTwo 52 ≤ mantissa

def isNegative : Sign → Bool
  | .negative => true
  | .positive => false

inductive Shape (x : Float) : UnpackedFloat → Prop where
  | notANumber (none : Binary.ofFloat? x = none) : Shape x .notANumber
  | infinity (s : Sign) (none : Binary.ofFloat? x = none) : Shape x (.infinity s)
  | zero (s : Sign) (some : Binary.ofFloat? x = some ⟨isNegative s, 0, -1074⟩) : Shape x (.zero s)
  | finite (s : Sign) (m : Nat) (e : Int) (positive : 0 < m) (some : Binary.ofFloat? x = some ⟨isNegative s, m, e⟩)
      (normal : Normal m e) : Shape x (.finite s m e positive)

variable {x y : Float} {e : Int} {m : Nat}

theorem shape_of_bits {b : BitVec Format.binary64.numBits} (bits : x.toBits.toNat = b.toNat) :
    Shape x (UnpackedFloat.unpack .binary64 b) := by
  have sign : isNegative (Sign.ofBitVec (unpackSign b)) = decide (powTwo 63 ≤ b.toNat) := by
    by_cases positive : unpackSign b = 0#1
    · rw [decide_eq_false (unpackSign_eq_zero_iff.mp positive), Sign.ofBitVec, if_pos positive]
      rfl
    · rw [decide_eq_true (Decidable.not_not.mp (mt unpackSign_eq_zero_iff.mpr positive)), Sign.ofBitVec, if_neg positive]
      rfl
  have low : (unpackMantissa b).toNat < powTwo 52 := (unpackMantissa b).isLt
  have read : Binary.ofFloat? x =
      if (unpackExponent b).toNat == 2047 then none
      else if (unpackExponent b).toNat == 0 then
        some ⟨isNegative (Sign.ofBitVec (unpackSign b)), (unpackMantissa b).toNat, -1074⟩
      else some ⟨isNegative (Sign.ofBitVec (unpackSign b)), (unpackMantissa b).toNat + powTwo 52,
        ((unpackExponent b).toNat : Int) - 1075⟩ := by
    rw [toNat_unpackExponent, toNat_unpackMantissa, sign, ← bits]
    rfl
  unfold UnpackedFloat.unpack
  by_cases special : unpackExponent b = -1#11
  · rw [special] at read
    rw [if_pos special]
    by_cases empty : unpackMantissa b = 0#52
    · rw [if_pos empty]
      exact .infinity _ read
    · rw [if_neg empty]
      exact .notANumber read
  · have number : (unpackExponent b).toNat ≠ 2047 := fun same => special (BitVec.toNat_eq.mpr same)
    rw [if_neg (by simpa using number)] at read
    rw [if_neg special]
    by_cases least : unpackExponent b = 0#11
    · rw [least] at read ⊢
      by_cases empty : unpackMantissa b = 0#52
      · rw [empty] at read
        rw [dif_pos empty]
        exact .zero _ read
      · rw [dif_neg empty]
        exact .finite _ _ _ _ read ⟨Nat.lt_trans low (by decide), by decide, fun other => (other rfl).elim⟩
    · have above : (unpackExponent b).toNat ≠ 0 := fun same => least (BitVec.toNat_eq.mpr same)
      rw [if_neg (by simpa using above), ← toNat_leadingOne] at read
      rw [if_neg least]
      refine .finite _ _ _ _ read ⟨?_, ?_, fun _ => ?_⟩
      · have twice : powTwo 53 = powTwo 52 * 2 := powTwo_succ 52
        rw [toNat_leadingOne]
        omega
      · show -1074 ≤ ((unpackExponent b).toNat : Int) - 1075
        omega
      · rw [toNat_leadingOne]
        exact Nat.le_add_left ..

theorem shape (x : Float) : ∃ u, x.toModel.unpack = u ∧ Shape x u :=
  ⟨_, rfl, shape_of_bits rfl⟩

theorem powTwo_pos (n : Nat) : 0 < powTwo n :=
  Nat.two_pow_pos n

theorem powTwo_ne_zero (n : Nat) : ((powTwo n : Nat) : Int) ≠ 0 :=
  Int.natCast_ne_zero.mpr (Nat.ne_of_gt (powTwo_pos n))

/-- The exact value of a number: a whole number of units of the least double, or infinity. -/
inductive Amount where
  | finite (units : Int)
  | infinite (negative : Bool)
  deriving DecidableEq

def Binary.units (b : Binary) : Int :=
  (if b.negative then -(b.mantissa : Int) else b.mantissa) * powTwo (b.exponent + 1074).toNat

def Amount.ofInt (n : Int) : Amount :=
  .finite (n * powTwo 1074)

theorem Amount.ofInt_inj {m n : Int} : Amount.ofInt m = Amount.ofInt n ↔ m = n := by
  simp only [Amount.ofInt, Amount.finite.injEq, Int.mul_eq_mul_right_iff (powTwo_ne_zero _)]

def amount? (x : Float) : Option Amount :=
  match Binary.ofFloat? x with
  | some b => some (.finite b.units)
  | none => if x.isNaN then none else some (.infinite !(x > 0))

theorem Normal.eq_of_units {m' : Nat} {e' : Int} (normal : Normal m e) (normal' : Normal m' e')
    (same : m * powTwo (e + 1074).toNat = m' * powTwo (e' + 1074).toNat) : m = m' ∧ e = e' := by
  -- With the larger exponent there is a leading bit, so the other mantissa would be too large.
  have order {m m' : Nat} {e e' : Int} (normal : Normal m e) (normal' : Normal m' e')
      (same : m * powTwo (e + 1074).toNat = m' * powTwo (e' + 1074).toNat) : e ≤ e' := by
    refine Int.not_lt.mp fun less => ?_
    have least := normal'.least_le
    have leading := normal.leading (by omega)
    obtain ⟨d, gap⟩ := Nat.exists_eq_add_of_lt (show (e' + 1074).toNat < (e + 1074).toNat by omega)
    rw [gap, Nat.add_assoc, powTwo_add, Nat.mul_comm (powTwo _), ← Nat.mul_assoc] at same
    have large : m * powTwo (d + 1) = m' := Nat.eq_of_mul_eq_mul_right (powTwo_pos _) same
    have twice : powTwo 52 * 2 ≤ m * powTwo (d + 1) := Nat.mul_le_mul leading (powTwo_le (Nat.le_add_left 1 d))
    have small : m' < powTwo 52 * 2 := normal'.mantissa_lt
    omega
  have exponents : e = e' := Int.le_antisymm (order normal normal' same) (order normal' normal same.symm)
  subst exponents
  exact ⟨Nat.eq_of_mul_eq_mul_right (powTwo_pos _) same, rfl⟩

def amountOf : UnpackedFloat → Option Amount
  | .notANumber => none
  | .infinity s => some (.infinite (isNegative s))
  | .zero _ => some (.finite 0)
  | .finite s m e _ => some (.finite (Binary.units ⟨isNegative s, m, e⟩))

theorem lt_iff : x < y ↔ x.toModel.unpack.compare y.toModel.unpack = some .lt := by
  show decide (Float.Model.lt x.toModel y.toModel = true) = true ↔ _
  rw [Bool.decide_eq_true]
  exact beq_iff_eq

theorem amount?_eq (x : Float) : amount? x = amountOf x.toModel.unpack := by
  have isNaN : x.isNaN = x.toModel.unpack.isNaN := rfl
  have above : decide (x > 0) = ((UnpackedFloat.zero .positive).compare x.toModel.unpack == some .lt) := by
    have zero : (0 : Float).toModel.unpack = .zero .positive := rfl
    rw [← zero, Bool.eq_iff_iff, decide_eq_true_iff, beq_iff_eq]
    exact lt_iff
  unfold amount?
  rw [isNaN, above]
  obtain ⟨u, fields, reads⟩ := shape x
  rw [fields]
  cases reads with
  | notANumber none => rw [none]; rfl
  | infinity s none => rw [none]; cases s <;> rfl
  | zero s some =>
    have units : Binary.units ⟨isNegative s, 0, -1074⟩ = 0 := by cases s <;> simp [Binary.units]
    rw [some]
    exact congrArg (fun n => Option.some (Amount.finite n)) units
  | finite s m e positive some normal => rw [some]; rfl

theorem units_eq (s : Sign) (m : Nat) (e : Int) : Binary.units ⟨isNegative s, m, e⟩ =
    if isNegative s then -((m * powTwo (e + 1074).toNat : Nat) : Int) else (m * powTwo (e + 1074).toNat : Nat) := by
  cases s <;> simp [Binary.units, isNegative, Int.neg_mul]

theorem units_inj {s s' : Sign} {m' : Nat} {e' : Int} (positive : 0 < m) (positive' : 0 < m') (normal : Normal m e)
    (normal' : Normal m' e') (same : Binary.units ⟨isNegative s, m, e⟩ = Binary.units ⟨isNegative s', m', e'⟩) :
    s = s' ∧ m = m' ∧ e = e' := by
  have large' : 0 < m' * powTwo (e' + 1074).toNat := Nat.mul_pos positive' (powTwo_pos _)
  rw [units_eq, units_eq] at same
  have magnitudes : s = s' ∧ m * powTwo (e + 1074).toNat = m' * powTwo (e' + 1074).toNat := by
    cases s <;> cases s' <;> simp only [isNegative, if_true, Bool.false_eq_true, if_false] at same <;>
      simp only [true_and, reduceCtorEq, false_and] <;> omega
  exact ⟨magnitudes.1, normal.eq_of_units normal' magnitudes.2⟩

theorem units_ne_zero {s : Sign} (positive : 0 < m) : Binary.units ⟨isNegative s, m, e⟩ ≠ 0 := by
  have large : 0 < m * powTwo (e + 1074).toNat := Nat.mul_pos positive (powTwo_pos _)
  rw [units_eq]
  split <;> omega

inductive SameFields : UnpackedFloat → UnpackedFloat → Prop where
  | zeros (s s' : Sign) : SameFields (.zero s) (.zero s')
  | infinities (s : Sign) : SameFields (.infinity s) (.infinity s)
  | finites (s : Sign) (m : Nat) (e : Int) (p : 0 < m) : SameFields (.finite s m e p) (.finite s m e p)

theorem compare_eq_iff {u w : UnpackedFloat} : u.compare w = some .eq ↔ SameFields u w := by
  constructor
  · intro same
    have fields {m m' : Nat} {e e' : Int} (same : (compare e e').then (compare m m') = .eq) : e = e' ∧ m = m' := by
      obtain ⟨exponents, mantissas⟩ := Ordering.then_eq_eq.mp same
      exact ⟨Std.LawfulEqCmp.eq_of_compare exponents, Std.LawfulEqCmp.eq_of_compare mantissas⟩
    cases u with
    | notANumber => cases same
    | infinity s =>
      cases w with
      | infinity s' => cases s <;> cases s' <;> first | exact .infinities _ | cases same
      | _ => cases s <;> cases same
    | zero s =>
      cases w with
      | notANumber => cases same
      | zero s' => exact .zeros s s'
      | infinity s' | finite s' m' e' p' => cases s' <;> cases same
    | finite s m e p =>
      cases w with
      | notANumber | zero s' => cases s <;> cases same
      | infinity s' => cases s <;> cases s' <;> cases same
      | finite s' m' e' p' =>
        cases s <;> cases s'
        case positive.positive =>
          obtain ⟨rfl, rfl⟩ := fields (Option.some.inj same)
          exact .finites ..
        case negative.negative =>
          obtain ⟨rfl, rfl⟩ := fields (Ordering.swap_eq_eq.mp (Option.some.inj same))
          exact .finites ..
        all_goals cases same
  · intro same
    cases same with
    | zeros s s' => cases s <;> rfl
    | infinities s => cases s <;> rfl
    | finites s m e p =>
      have self : (compare e e).then (compare m m) = .eq :=
        Ordering.then_eq_eq.mpr ⟨Std.ReflCmp.compare_self, Std.ReflCmp.compare_self⟩
      cases s with
      | positive => exact congrArg some self
      | negative => exact congrArg some (Ordering.swap_eq_eq.mpr self)

theorem SameFields.symm {u w : UnpackedFloat} (same : SameFields u w) : SameFields w u := by
  cases same with
  | zeros s s' => exact .zeros s' s
  | infinities s => exact .infinities s
  | finites s m e p => exact .finites s m e p

theorem not_lt_of_beq (same : x == y) : ¬ x < y ∧ ¬ y < x := by
  have fields : SameFields x.toModel.unpack y.toModel.unpack := compare_eq_iff.mp (eq_of_beq same)
  rw [lt_iff, lt_iff, compare_eq_iff.mpr fields, compare_eq_iff.mpr fields.symm]
  exact ⟨nofun, nofun⟩

theorem beq_iff_amount : x == y ↔ ∃ a, amount? x = some a ∧ amount? y = some a := by
  have equal : (x == y) = (x.toModel.unpack.compare y.toModel.unpack == some .eq) := rfl
  obtain ⟨u, fieldsX, shapeX⟩ := shape x
  obtain ⟨w, fieldsY, shapeY⟩ := shape y
  rw [equal, amount?_eq, amount?_eq, beq_iff_eq, fieldsX, fieldsY, compare_eq_iff]
  constructor
  · intro same
    cases same <;> exact ⟨_, rfl, rfl⟩
  · rintro ⟨a, left, right⟩
    cases shapeX with
    | notANumber => cases left
    | infinity s =>
      cases left
      cases shapeY with
      | infinity s' =>
        cases s <;> cases s' <;> first | exact .infinities _ | cases right
      | _ => cases right
    | zero s =>
      cases left
      cases shapeY with
      | zero s' => exact .zeros s s'
      | finite s' m e positive => exact absurd (Amount.finite.inj (Option.some.inj right)) (units_ne_zero positive)
      | _ => cases right
    | finite s m e positive _ normal =>
      cases left
      cases shapeY with
      | zero s' => exact absurd (Amount.finite.inj (Option.some.inj right)).symm (units_ne_zero positive)
      | finite s' m' e' positive' _ normal' =>
        obtain ⟨rfl, rfl, rfl⟩ :=
          units_inj positive' positive normal' normal (Amount.finite.inj (Option.some.inj right))
        exact .finites ..
      | _ => cases right

theorem Binary.units_eq_iff {b : Binary} (least : -1074 ≤ b.exponent) (n : Int) :
    n * b.ratio.2 = b.ratio.1 ↔ b.units = n * powTwo 1074 := by
  unfold Binary.ratio Binary.units
  generalize (if b.negative = true then -(b.mantissa : Int) else b.mantissa) = p
  split
  next whole =>
    have split : powTwo (b.exponent + 1074).toNat = powTwo b.exponent.toNat * powTwo 1074 := by
      rw [← powTwo_add]
      congr 1
      omega
    rw [split, Int.natCast_mul, ← Int.mul_assoc, Int.mul_eq_mul_right_iff (powTwo_ne_zero _)]
    simp [eq_comm]
  next part =>
    have split : powTwo 1074 = powTwo (-b.exponent).toNat * powTwo (b.exponent + 1074).toNat := by
      rw [← powTwo_add]
      congr 1
      omega
    rw [split, Int.natCast_mul, ← Int.mul_assoc, Int.mul_eq_mul_right_iff (powTwo_ne_zero _), eq_comm]

theorem least_le_exponent {b : Binary} (read : Binary.ofFloat? x = some b) : -1074 ≤ b.exponent := by
  obtain ⟨u, _, reads⟩ := shape x
  cases reads with
  | notANumber none | infinity _ none => cases none.symm.trans read
  | zero _ some =>
    cases some.symm.trans read
    exact Int.le_refl _
  | finite _ _ _ _ some normal =>
    cases some.symm.trans read
    exact normal.least_le

theorem compareInt_eq_iff {n : Int} : compareInt n x = some .eq ↔ amount? x = some (.ofInt n) := by
  unfold compareInt amount?
  cases read : Binary.ofFloat? x with
  | some b =>
    have whole : compare (n * b.ratio.2) b.ratio.1 = .eq ↔ b.units = n * powTwo 1074 :=
      Std.compare_eq_iff_eq.trans (Binary.units_eq_iff (least_le_exponent read) n)
    simp only [Option.some.injEq, whole, Amount.ofInt, Amount.finite.injEq]
  | none =>
    by_cases number : x.isNaN
    · simp only [number, if_true, reduceCtorEq]
    · by_cases above : 0 < x <;> simp only [number, above, Amount.ofInt, Bool.false_eq_true, if_true, if_false,
        Option.some.injEq, reduceCtorEq]

end PineEngine.Decimal

namespace PineEngine.Value

open Decimal

def amount? : Value → Option Amount
  | .int n => some (.ofInt n)
  | .bool b => some (.ofInt (if b then 1 else 0))
  | .float x => Decimal.amount? x
  | _ => none

inductive Meaning where
  | absent
  | text (s : String)
  | number (a : Amount)
  | definition (id : Nat)
  | unsupported

def meaning? : Value → Option Meaning
  | .absent => some .absent
  | .text s => some (.text s)
  | .definition id => some (.definition id)
  | .unsupported => some .unsupported
  | v => v.amount?.map .number

theorem compareNumbers_eq_iff {a b : Value} :
    compareNumbers a b = some .eq ↔ ∃ x, a.amount? = some x ∧ b.amount? = some x := by
  cases a <;> cases b <;> simp [compareNumbers, whole?, amount?, compareInt_eq_iff, Amount.ofInt_inj]
  case float.float x y =>
    rw [← beq_iff_amount]
    by_cases same : x == y
    · simp [same, not_lt_of_beq same]
    · simp only [same, Bool.false_eq_true, if_false, iff_false]
      split
      · nofun
      · split <;> nofun
  all_goals exact eq_comm

theorem exists_number_iff {x y : Option Amount} :
    (∃ m, x.map Meaning.number = some m ∧ y.map Meaning.number = some m) ↔ ∃ a, x = some a ∧ y = some a := by
  constructor
  · rintro ⟨m, left, right⟩
    obtain ⟨a, rfl, rfl⟩ := Option.map_eq_some_iff.mp left
    obtain ⟨b, rfl, same⟩ := Option.map_eq_some_iff.mp right
    cases same
    exact ⟨_, rfl, rfl⟩
  · rintro ⟨a, rfl, rfl⟩
    exact ⟨_, rfl, rfl⟩

theorem same_iff {a b : Value} (keyA : a.isKey) (keyB : b.isKey) :
    a.same b ↔ ∃ m, a.meaning? = some m ∧ b.meaning? = some m := by
  cases a <;> cases b
  case float.float x y =>
    have numbers : (float x).same (float y) ↔ compareNumbers (.float x) (.float y) = some .eq := by
      simp only [same, isNumber, Bool.and_self, Bool.true_and, beq_iff_eq]
    exact numbers.trans (compareNumbers_eq_iff.trans exists_number_iff.symm)
  all_goals simp [same, meaning?, isNumber, amount?, isKey, compareNumbers_eq_iff] at keyA keyB ⊢
  all_goals exact eq_comm

variable {a b c : Value}

theorem same_symm (keyA : a.isKey) (keyB : b.isKey) (same : a.same b) : b.same a := by
  obtain ⟨m, left, right⟩ := (same_iff keyA keyB).mp same
  exact (same_iff keyB keyA).mpr ⟨m, right, left⟩

theorem same_trans (keyA : a.isKey) (keyB : b.isKey) (keyC : c.isKey) (first : a.same b) (second : b.same c) :
    a.same c := by
  obtain ⟨m, left, middle⟩ := (same_iff keyA keyB).mp first
  obtain ⟨m', middle', right⟩ := (same_iff keyB keyC).mp second
  cases middle.symm.trans middle'
  exact (same_iff keyA keyC).mpr ⟨m, left, right⟩

theorem isKey_of_same (keyA : a.isKey) (same : a.same b) : b.isKey := by
  cases a <;> cases b <;> simp_all [Value.same, isKey, isNumber]

theorem same_congr (keyA : a.isKey) (keyB : b.isKey) (same : a.same b) (c : Value) : a.same c = b.same c := by
  refine Bool.eq_iff_iff.mpr ⟨fun other => ?_, fun other => ?_⟩
  · exact same_trans keyB keyA (isKey_of_same keyA other) (same_symm keyA keyB same) other
  · exact same_trans keyA keyB (isKey_of_same keyB other) same other

theorem decideOrder_ints (op : CompareOp) (a b : Int) : op.decideOrder (Ord.compare a b) = match op with
    | .eq => decide (a = b)
    | .ne => decide (a ≠ b)
    | .lt => decide (a < b)
    | .le => decide (a ≤ b)
    | .gt => decide (b < a)
    | .ge => decide (b ≤ a) := by
  rw [Int.compare_eq_ite_lt]
  split
  · cases op <;> simp [CompareOp.decideOrder] <;> omega
  · split <;> cases op <;> simp [CompareOp.decideOrder] <;> omega

theorem holds_ints (op : CompareOp) (a b : Int) : Value.holds op (.int a) (.int b) = .ok (match op with
    | .eq => decide (a = b)
    | .ne => decide (a ≠ b)
    | .lt => decide (a < b)
    | .le => decide (a ≤ b)
    | .gt => decide (b < a)
    | .ge => decide (b ≤ a)) :=
  congrArg Except.ok (decideOrder_ints op a b)

end PineEngine.Value
