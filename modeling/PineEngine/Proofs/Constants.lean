import PineEngine.Proofs.Numbering
import PineEngine.Proofs.Prefixes

/-! # Scripts that look back only

`Code.looksBack` tells the scripts that reach for no bar after the current one: they index by numbers that are not
negative, and offsets and pivots take such numbers. In these scripts a value is a series, or it is the same on every
market; `Code.constant?` computes it then.
-/

namespace PineEngine

open Script Builtin Computation

namespace Script

def BinaryOp.ofNumbers (op : BinaryOp) (a b : Value) : Except Fault Value :=
  match op with
  | .index => .error (.script (.notIndexable a.typeShown))
  | .eq => Value.compare .eq a b
  | .neq => Value.compare .ne a b
  | .gt => Value.compare .gt a b
  | .ge => Value.compare .ge a b
  | .lt => Value.compare .lt a b
  | .le => Value.compare .le a b
  | .add => Value.arith .add a b
  | .sub => Value.arith .sub a b
  | .mul => Value.arith .mul a b
  | .div => Value.arith .div a b
  | .mod => Value.arith .mod a b

/-- The value of an operator on constant values; `none` if it is a series. -/
def BinaryOp.constant? (op : BinaryOp) : Option Value → Option Value → Option Value
  | some x, some y => (op.ofNumbers x y).toOption
  | _, _ => none

def UnaryOp.ofNumber (op : UnaryOp) (v : Value) : Except Fault Value :=
  match op with
  | .plus => .ok v
  | .not => .ok (.bool (!v.isTrue))
  | .minus => v.negate

def choiceConstant? (c y e : Option Value) : Option Value :=
  match c.map Machine.conditionHolds with
  | some (.ok holds) => if holds then y else e
  | _ => none

/-- The value of a condition and of the ones after it, whose value is `more` with a series among them or without. -/
def connectConstant? (isAnd : Bool) (more : Bool → Option Value) (found : Bool) : Option Value → Option Value
  | none => more true
  | some v => if v.isTrue == isAnd then more found else some v

/-- What is known of the argument for a parameter, where `some none` is a series. -/
def knownFor (sig : Signature) (args : List (Option Value)) (named : List (String × Option Value)) (name : String) :
    Option (Option Value) :=
  (named.reverse ++ ((sig.map (·.name)).zip args).reverse).lookup name

def substituteOf : Option (Option Value) → Value
  | some (some v) => v
  | _ => .float 0.0

/-- What `nz` gives for a number. -/
def nzConstant? (args : List (Option Value)) (named : List (String × Option Value)) : Option Value :=
  match knownFor Function.nz.signature args named "x" with
  | some (some v) =>
    match v.isNaN with
    | .ok notNumber => some (if notNumber then substituteOf (knownFor Function.nz.signature args named "y") else v)
    | .error _ => none
  | _ => none

namespace Code

mutual

/-- The value that code has on every market; `none` if it is a series. -/
def constant? : Code → Option Value
  | .block _ items => lastConstant? none items
  | .literal _ v => some v
  | .anyOf _ items => connectedConstant? false false items
  | .allOf _ items => connectedConstant? true false items
  | .binary _ op a b => op.constant? a.constant? b.constant?
  | .unary _ op a => a.constant?.bind fun v => (op.ofNumber v).toOption
  | .variable _ _ target => target.constant?
  | .call _ _ .nz args named => nzConstant? (constants args) (namedConstants named)
  | .choice _ _ c y (some e) _ => choiceConstant? c.constant? y.constant? e.constant?
  | .define _ _ _ e => e.constant?
  | .inlined _ _ _ body => body.constant?
  | _ => none

def lastConstant? (last : Option Value) : List Code → Option Value
  | [] => last
  | c :: rest => lastConstant? c.constant? rest

def constants : List Code → List (Option Value)
  | [] => []
  | c :: rest => c.constant? :: constants rest

def namedConstants : List (String × Code) → List (String × Option Value)
  | [] => []
  | (k, c) :: rest => (k, c.constant?) :: namedConstants rest

/-- The constant value of conditions in a row; `found` tells that a series came before. -/
def connectedConstant? (isAnd found : Bool) : List Code → Option Value
  | [] => if found then none else some (.bool isAnd)
  | c :: rest => connectConstant? isAnd (fun found => connectedConstant? isAnd found rest) found c.constant?

end

end Code

theorem Code.constant_call (id : Nat) (name : String) (fn : Function) (args : List Code)
    (named : List (String × Code)) : (Code.call id name fn args named).constant? =
      if fn = .nz then nzConstant? (constants args) (namedConstants named) else none := by
  cases fn <;> simp [constant?]

def isCount : Option (Option Value) → Bool
  | some (some v) =>
    match ArgKind.int.convert? v with
    | .ok (some w) => w.whole?.all (0 ≤ ·)
    | _ => true
  | _ => true

def callLooksBack (fn : Function) (args : List (Option Value)) (named : List (String × Option Value)) : Bool :=
  match fn with
  | .barssince | .valuewhen | .cross | .crossover | .crossunder => true
  | .nz =>
    match knownFor Function.nz.signature args named "y" with
    | none | some (some (.float _)) => true
    | _ => false
  | .offset => isCount (knownFor Function.offset.signature args named "offset")
  | .pivothigh | .pivotlow =>
    [fn.signature, neighbourhood].all fun sig => sig.length < args.length ||
      ["leftbars", "rightbars"].all fun name => isCount (knownFor sig args named name)
  | _ => false

namespace Code

mutual

/-- Code that looks back only. The first branch of a choice on a series is no whole number beyond 64 bits. -/
def looksBack : Code → Bool
  | .block _ items => !items.isEmpty && allLookBack items
  | .literal _ v => v.isNumber
  | .anyOf _ items | .allOf _ items => allLookBack items
  | .binary _ op a b =>
    a.looksBack && b.looksBack && (op != .index || (b.constant?.bind Value.whole?).any (0 ≤ ·))
  | .unary _ _ a => a.looksBack
  | .builtin _ _ _ (.source s) => s != .time
  | .variable _ _ target => target.looksBack
  | .call _ _ fn args named =>
    allLookBack args && namedLookBack named && callLooksBack fn (constants args) (namedConstants named)
  | .choice _ _ c y (some e) inline =>
    c.looksBack && y.looksBack && e.looksBack &&
      (c.constant?.isSome || inline && y.constant?.all fun v => Kind.ofValue v != .object)
  | .define _ _ _ e => e.looksBack
  | .inlined _ _ args body => allLookBack args && body.looksBack
  | _ => false

def allLookBack : List Code → Bool
  | [] => true
  | c :: rest => c.looksBack && allLookBack rest

def namedLookBack : List (String × Code) → Bool
  | [] => true
  | (_, c) :: rest => c.looksBack && namedLookBack rest

end

theorem role_of_looksBack {fn : Function} {args : List (Option Value)} {named : List (String × Option Value)}
    (back : callLooksBack fn args named) : fn.role = .plain := by
  cases fn with
  | barssince | valuewhen | cross | crossover | crossunder | nz | offset | pivothigh | pivotlow => rfl
  | _ => cases back

end Code

end Script

variable {v a b : Value}

namespace Value

variable {op : ArithOp}

theorem arithInts_number {m n : Int} (h : arithInts op m n = .ok v) : v.isNumber := by
  cases op with
  | add | sub | mul => cases h; rfl
  | mod =>
    simp only [arithInts] at h
    split at h <;> cases h
    rfl
  | div =>
    simp only [arithInts] at h
    split at h
    · cases h
    · split at h <;> cases h
      rfl

theorem arithFloats_eq_ok {x y : Float} (h : arithFloats op x y = .ok v) : ∃ z, v = .float z := by
  unfold arithFloats at h
  split at h
  · split at h <;> cases h
    exact ⟨_, rfl⟩
  · split at h <;> cases h
    exact ⟨_, rfl⟩
  · cases h
    exact ⟨_, rfl⟩

theorem arith_numbers (op : ArithOp) (left : a.isNumber) (right : b.isNumber) :
    arith op a b = match a.whole?, b.whole? with
      | some m, some n => arithInts op m n
      | _, _ => (do arithFloats op (← a.toFloat) (← b.toFloat)) := by
  cases a <;> cases left <;> cases b <;> cases right <;> cases op <;> rfl

theorem arith_number (left : a.isNumber) (right : b.isNumber) (h : arith op a b = .ok v) : v.isNumber := by
  rw [arith_numbers op left right] at h
  split at h
  · exact arithInts_number h
  · obtain ⟨x, _, y, _, h⟩ := bind₂_eq_ok h
    obtain ⟨z, rfl⟩ := arithFloats_eq_ok h
    rfl

theorem compare_number {op : CompareOp} (left : a.isNumber) (right : b.isNumber) (h : compare op a b = .ok v) :
    v.isNumber := by
  have plain : compare op a b = (comparePlain op a b).map Value.bool := by
    cases a <;> cases left <;> cases b <;> cases right <;> rfl
  rw [plain] at h
  obtain ⟨answer, _, rfl⟩ := map_eq_ok h
  rfl

theorem negate_number (number : a.isNumber) (h : negate a = .ok v) : v.isNumber := by
  cases a <;> cases number <;> cases h <;> rfl

end Value

namespace Script

theorem BinaryOp.ofNumbers_number {op : BinaryOp} (left : a.isNumber) (right : b.isNumber)
    (h : op.ofNumbers a b = .ok v) : v.isNumber := by
  cases op with
  | index => cases h
  | add | sub | mul | div | mod => exact Value.arith_number left right h
  | eq | neq | gt | ge | lt | le => exact Value.compare_number left right h

theorem UnaryOp.ofNumber_number {op : UnaryOp} (number : a.isNumber) (h : op.ofNumber a = .ok v) : v.isNumber := by
  cases op with
  | plus =>
    cases h
    exact number
  | not =>
    cases h
    rfl
  | minus => exact Value.negate_number number h

end Script

namespace Machine

theorem binary_numbers (op : BinaryOp) (left : a.isNumber) (right : b.isNumber) :
    binary op a b = liftM (op.ofNumbers a b) := by
  cases op <;> cases a <;> cases left <;> cases b <;> cases right <;> rfl

theorem unary_number (op : UnaryOp) (number : v.isNumber) : unary op v = liftM (op.ofNumber v) := by
  cases op <;> cases v <;> cases number <;> rfl

end Machine

end PineEngine
