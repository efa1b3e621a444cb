import Mathlib.Algebra.Ring.Int.Defs
import PineEngine.Proofs.Columns
import PineEngine.Proofs.Computation
import PineEngine.Proofs.Keys

/-! # What orders do to positions

The position of a name is the quantity of the order that holds it. An order does one of three things
(`Ledger.Applied`): it opens a position, it closes one, or it changes one. In each case the position of its name
changes by its quantity and no other position changes, so a list of orders changes every position by the sum of
the quantities of its name, in whatever order they are applied.
-/

namespace PineEngine

open Computation List Value

def Order.units (o : Order) : Int :=
  match o.qty with
  | .int q => q
  | _ => 0

structure Order.Whole (o : Order) : Prop where
  key : o.id.isKey
  units : o.qty = .int o.units

def Order.total (orders : List Order) (id : Value) : Int :=
  ((orders.filter (·.id.same id)).map Order.units).sum

namespace Order

theorem Whole.of_int {id : Value} (key : id.isKey) (q : Int) : Whole ⟨id, .int q⟩ :=
  ⟨key, rfl⟩

@[simp] theorem units_int (id : Value) (q : Int) : units ⟨id, .int q⟩ = q := rfl

@[simp] theorem total_nil (id : Value) : total [] id = 0 := rfl

theorem total_cons (o : Order) (orders : List Order) (id : Value) :
    total (o :: orders) id = (if o.id.same id then o.units else 0) + total orders id := by
  by_cases same : o.id.same id <;> simp [total, same]

theorem total_append (first second : List Order) (id : Value) :
    total (first ++ second) id = total first id + total second id := by
  simp [total]

theorem total_perm {orders orders' : List Order} (perm : orders.Perm orders') (id : Value) :
    total orders id = total orders' id := by
  induction perm with
  | nil => rfl
  | cons o _ ih => rw [total_cons, total_cons, ih]
  | swap o o' orders =>
    simp only [total_cons]
    omega
  | trans _ _ first second => exact first.trans second

end Order

namespace Ledger

variable {l l' : Ledger} {n m : Nat} {id : Value}

def position (l : Ledger) (id : Value) : Value :=
  match l.positions.find? fun (k, _) => k.same id with
  | some (_, n) => (l.order n).qty
  | none => .int 0

def Stores (l : Ledger) (id : Value) : Prop :=
  ∃ e ∈ l.positions, e.1.same id

/-- Names that are apart, each with an order of its own, of a whole quantity. -/
structure Sorted (l : Ledger) : Prop where
  keys : ∀ e ∈ l.positions, e.1.isKey
  nodup : l.positions.Nodup
  apart : ∀ d ∈ l.positions, ∀ e ∈ l.positions, d.1.same e.1 → d = e
  numbers : ∀ d ∈ l.positions, ∀ e ∈ l.positions, d.2 = e.2 → d = e
  present : ∀ e ∈ l.positions, e.2 < l.orders.size
  whole : ∀ e ∈ l.positions, (l.order e.2).qty = .int (l.order e.2).units

def NoneFlat (l : Ledger) : Prop :=
  ∀ e ∈ l.positions, (l.order e.2).units ≠ 0

variable {e : Value × Nat} {k : Nat}

theorem Sorted.eq_of_same (sorted : l.Sorted) {d : Value × Nat} (amongD : d ∈ l.positions) (amongE : e ∈ l.positions)
    (sameD : d.1.same id) (sameE : e.1.same id) : d = e := by
  have keyD := sorted.keys d amongD
  have keyE := sorted.keys e amongE
  have key := isKey_of_same keyD sameD
  exact sorted.apart d amongD e amongE (same_trans keyD key keyE sameD (same_symm keyE key sameE))

theorem Sorted.find_eq (sorted : l.Sorted) (mem : e ∈ l.positions) (same : e.1.same id) :
    l.positions.find? (fun (k, _) => k.same id) = some e := by
  cases found : l.positions.find? fun (k, _) => k.same id with
  | none => exact absurd same (by simpa using find?_eq_none.mp found e mem)
  | some d =>
    rw [sorted.eq_of_same (mem_of_find?_eq_some found) mem (by simpa using find?_some found) same]

theorem find_eq_none (flat : ¬ l.Stores id) : l.positions.find? (fun (k, _) => k.same id) = none :=
  find?_eq_none.mpr fun e mem same => flat ⟨e, mem, same⟩

theorem Sorted.position_eq (sorted : l.Sorted) (mem : e ∈ l.positions) (same : e.1.same id) :
    l.position id = .int (l.order e.2).units := by
  rw [position, sorted.find_eq mem same]
  exact sorted.whole e mem

theorem position_eq_zero (flat : ¬ l.Stores id) : l.position id = .int 0 := by
  rw [position, find_eq_none flat]

theorem Sorted.position_congr (sorted : l.Sorted) (sorted' : l'.Sorted)
    (stored : ∀ e : Value × Nat, e.1.same id → (e ∈ l'.positions ↔ e ∈ l.positions))
    (units : ∀ e ∈ l.positions, e.1.same id → (l'.order e.2).units = (l.order e.2).units) :
    l'.position id = l.position id := by
  by_cases here : l.Stores id
  · obtain ⟨e, mem, same⟩ := here
    rw [sorted.position_eq mem same, sorted'.position_eq ((stored e same).mpr mem) same, units e mem same]
  · rw [position_eq_zero here, position_eq_zero fun ⟨e, mem, same⟩ => here ⟨e, (stored e same).mp mem, same⟩]

theorem holder_eq (key : id.isKey) : l.holder? id = .ok ((l.positions.find? fun (k, _) => k.same id).map (·.2)) := by
  rw [holder?, if_pos key]

inductive Applied (l : Ledger) (n : Nat) : Ledger → Prop where
  /-- There is no position of the name. -/
  | opened (flat : ¬ l.Stores (l.order n).id) :
      Applied l n { l with positions := l.positions ++ [((l.order n).id, n)] }
  /-- The order makes up for the position. -/
  | closed (e : Value × Nat) (among : e ∈ l.positions) (same : e.1.same (l.order n).id)
      (zero : (l.order e.2).units + (l.order n).units = 0) :
      Applied l n { l with positions := l.positions.filter fun (_, k) => k != e.2 }
  /-- The order is added to the one that holds the position. -/
  | changed (e : Value × Nat) (among : e ∈ l.positions) (same : e.1.same (l.order n).id)
      (left : (l.order e.2).units + (l.order n).units ≠ 0) :
      Applied l n { l with
        orders := l.orders.setIfInBounds e.2 ⟨(l.order e.2).id, .int ((l.order e.2).units + (l.order n).units)⟩ }

theorem outcome_lift {α : Type} (x : Except Fault α) (l : Ledger) : outcome (liftM x : LedgerM α) l = (x, l) := by
  cases x <;> rfl

theorem apply_cases (sorted : l.Sorted) (whole : (l.order n).Whole) :
    ∃ l', outcome (apply n) l = (.ok (), l') ∧ Applied l n l' := by
  unfold apply
  rw [get_bind]
  dsimp only
  by_cases stored : l.Stores (l.order n).id
  · obtain ⟨e, mem, same⟩ := stored
    have held : l.holder? (l.order n).id = .ok (some e.2) := by
      rw [holder_eq whole.key, sorted.find_eq mem same]
      rfl
    have sum : arith .add (l.order e.2).qty (l.order n).qty =
        .ok (.int ((l.order e.2).units + (l.order n).units)) := by
      rw [sorted.whole e mem, whole.units]
      rfl
    rw [held, bind_ok (outcome_lift ..)]
    dsimp only
    rw [sum, bind_ok (outcome_lift ..), holds_ints, bind_ok (outcome_lift ..)]
    by_cases zero : (l.order e.2).units + (l.order n).units = 0
    · rw [if_pos (decide_eq_true zero)]
      exact ⟨_, rfl, .closed e mem same zero⟩
    · rw [if_neg (by simpa using zero)]
      exact ⟨_, rfl, .changed e mem same zero⟩
  · have held : l.holder? (l.order n).id = .ok none := by
      rw [holder_eq whole.key, find_eq_none stored]
      rfl
    rw [held, bind_ok (outcome_lift ..)]
    exact ⟨_, rfl, .opened stored⟩

theorem order_set_eq (o : Order) (inside : m < l.orders.size) :
    order { l with orders := l.orders.setIfInBounds m o } m = o := by
  simp [order, inside]

theorem order_set_ne (o : Order) (other : k ≠ m) :
    order { l with orders := l.orders.setIfInBounds m o } k = l.order k := by
  simp [order, Array.getElem?_setIfInBounds_ne (Ne.symm other)]

def Free (l : Ledger) (n : Nat) : Prop :=
  ∀ e ∈ l.positions, e.2 ≠ n

namespace Applied

variable (applied : Applied l n l')

include applied

theorem size_eq : l'.orders.size = l.orders.size := by
  cases applied <;> simp

theorem history_eq : l'.history = l.history := by
  cases applied <;> rfl

theorem order_eq (free : l.Free k) : l'.order k = l.order k := by
  cases applied with
  | opened | closed => rfl
  | changed e mem => exact order_set_ne _ (Ne.symm (free e mem))

theorem free (free : l.Free k) (other : k ≠ n) : l'.Free k := by
  intro e mem
  cases applied with
  | opened =>
    rcases mem_append.mp mem with old | new
    · exact free e old
    · cases mem_singleton.mp new
      exact Ne.symm other
  | closed => exact free e ((mem_filter.mp mem).1)
  | changed => exact free e mem

variable (before : l.Sorted) (whole : (l.order n).Whole) (vacant : l.Free n) (present : n < l.orders.size)
include before whole vacant present

theorem sorted : l'.Sorted := by
  cases applied with
  | opened flat =>
    have cases {e : Value × Nat} (mem : e ∈ l.positions ++ [((l.order n).id, n)]) :
        e ∈ l.positions ∨ e = ((l.order n).id, n) := by simpa using mem
    constructor
    · intro e mem
      rcases cases mem with old | rfl
      · exact before.keys e old
      · exact whole.key
    · refine nodup_append.mpr ⟨before.nodup, by simp, ?_⟩
      rintro d amongD e amongE rfl
      cases mem_singleton.mp amongE
      exact vacant _ amongD rfl
    · intro d amongD e amongE same
      rcases cases amongD with oldD | rfl <;> rcases cases amongE with oldE | rfl
      · exact before.apart d oldD e oldE same
      · exact absurd ⟨d, oldD, same⟩ flat
      · exact absurd ⟨e, oldE, same_symm whole.key (before.keys e oldE) same⟩ flat
      · rfl
    · intro d amongD e amongE same
      rcases cases amongD with oldD | rfl <;> rcases cases amongE with oldE | rfl
      · exact before.numbers d oldD e oldE same
      · exact absurd same (vacant d oldD)
      · exact absurd same.symm (vacant e oldE)
      · rfl
    · intro e mem
      rcases cases mem with old | rfl
      · exact before.present e old
      · exact present
    · intro e mem
      rcases cases mem with old | rfl
      · exact before.whole e old
      · exact whole.units
  | closed e₀ =>
    have old {e : Value × Nat} (mem : e ∈ l.positions.filter fun (_, k) => k != e₀.2) : e ∈ l.positions :=
      (mem_filter.mp mem).1
    exact ⟨fun e mem => before.keys e (old mem), before.nodup.filter _,
      fun d amongD e amongE => before.apart d (old amongD) e (old amongE),
      fun d amongD e amongE => before.numbers d (old amongD) e (old amongE),
      fun e mem => before.present e (old mem), fun e mem => before.whole e (old mem)⟩
  | changed e₀ among₀ =>
    refine ⟨before.keys, before.nodup, before.apart, before.numbers, fun e mem => ?_, fun e mem => ?_⟩
    · simpa using before.present e mem
    · by_cases here : e.2 = e₀.2
      · rw [here, order_set_eq _ (before.present e₀ among₀)]
        rfl
      · rw [order_set_ne _ here]
        exact before.whole e mem

theorem position_eq {p : Int} (held : l.position id = .int p) :
    l'.position id = .int (p + if (l.order n).id.same id then (l.order n).units else 0) := by
  have after := applied.sorted before whole vacant present
  cases applied with
  | opened flat =>
    by_cases same : (l.order n).id.same id
    · have none : ¬ l.Stores id := fun ⟨e, mem, other⟩ =>
        have key := isKey_of_same whole.key same
        flat ⟨e, mem, same_trans (before.keys e mem) key whole.key other (same_symm whole.key key same)⟩
      rw [position_eq_zero none] at held
      cases held
      rw [after.position_eq (e := ((l.order n).id, n)) (by simp) same, if_pos same, Int.zero_add]
      rfl
    · rw [if_neg same, Int.add_zero, ← held]
      refine before.position_congr after (fun e other => ?_) fun _ _ _ => rfl
      have old : e ≠ ((l.order n).id, n) := by
        rintro rfl
        exact same other
      simp [old]
  | closed e mem same zero =>
    rw [← same_congr (before.keys e mem) whole.key same]
    by_cases here : e.1.same id
    · have none : ¬ Stores { l with positions := l.positions.filter fun (_, k) => k != e.2 } id := by
        rintro ⟨d, amongD, other⟩
        obtain ⟨amongD, left⟩ := mem_filter.mp amongD
        cases before.eq_of_same amongD mem other here
        simp at left
      rw [before.position_eq mem here] at held
      cases held
      rw [position_eq_zero none, if_pos here, zero]
    · rw [if_neg here, Int.add_zero, ← held]
      refine before.position_congr after (fun d other => ?_) fun _ _ _ => rfl
      have left : d ∈ l.positions → d.2 ≠ e.2 := fun amongD number =>
        here (before.numbers d amongD e mem number ▸ other)
      simpa using left
  | changed e mem same left =>
    rw [← same_congr (before.keys e mem) whole.key same]
    by_cases here : e.1.same id
    · rw [before.position_eq mem here] at held
      cases held
      rw [after.position_eq mem here, order_set_eq _ (before.present e mem), if_pos here]
      rfl
    · rw [if_neg here, Int.add_zero, ← held]
      refine before.position_congr after (fun _ _ => Iff.rfl) fun d amongD other => ?_
      rw [order_set_ne _ fun number => here (before.numbers d amongD e mem number ▸ other)]

omit whole vacant present in
theorem noneFlat (units : (l.order n).units ≠ 0) (noneFlat : l.NoneFlat) : l'.NoneFlat := by
  intro d amongD
  cases applied with
  | opened =>
    rcases mem_append.mp amongD with old | new
    · exact noneFlat d old
    · cases mem_singleton.mp new
      exact units
  | closed => exact noneFlat d (mem_filter.mp amongD).1
  | changed e mem _ left =>
    by_cases here : d.2 = e.2
    · rw [here, order_set_eq _ (before.present e mem)]
      exact left
    · rw [order_set_ne _ here]
      exact noneFlat d amongD

end Applied

/-- What becomes of a ledger by the orders with some numbers, one after the other. -/
inductive AppliedAll : Ledger → List Nat → Ledger → Prop where
  | nil (l : Ledger) : AppliedAll l [] l
  | cons {l l₁ l' : Ledger} {n : Nat} {ns : List Nat} (first : Applied l n l₁) (rest : AppliedAll l₁ ns l') :
      AppliedAll l (n :: ns) l'

structure Ready (l : Ledger) (ns : List Nat) : Prop where
  nodup : ns.Nodup
  present : ∀ n ∈ ns, n < l.orders.size
  free : ∀ n ∈ ns, l.Free n
  whole : ∀ n ∈ ns, (l.order n).Whole

variable {ns : List Nat}

theorem Applied.rest_eq (applied : Applied l n l') (ready : l.Ready (n :: ns)) :
    l'.Ready ns ∧ ns.map l'.order = ns.map l.order := by
  have nodup := nodup_cons.mp ready.nodup
  have same {k : Nat} (mem : k ∈ ns) : l'.order k = l.order k :=
    applied.order_eq (ready.free k (.tail _ mem))
  refine ⟨⟨nodup.2, fun k mem => ?_, fun k mem => ?_, fun k mem => ?_⟩, map_congr_left fun k => same⟩
  · rw [applied.size_eq]
    exact ready.present k (.tail _ mem)
  · refine applied.free (ready.free k (.tail _ mem)) ?_
    rintro rfl
    exact nodup.1 mem
  · rw [same mem]
    exact ready.whole k (.tail _ mem)

theorem forM_apply (sorted : l.Sorted) (ready : l.Ready ns) :
    ∃ l', outcome (ns.forM apply) l = (.ok (), l') ∧ AppliedAll l ns l' := by
  induction ns generalizing l with
  | nil => exact ⟨l, rfl, .nil l⟩
  | cons n ns ih =>
    have mem := mem_cons_self (a := n) (l := ns)
    obtain ⟨l₁, here, applied⟩ := apply_cases sorted (ready.whole n mem)
    obtain ⟨l', rest, appliedAll⟩ :=
      ih (applied.sorted sorted (ready.whole n mem) (ready.free n mem) (ready.present n mem))
        (applied.rest_eq ready).1
    exact ⟨l', (bind_ok here).trans rest, .cons applied appliedAll⟩

namespace AppliedAll

variable (applied : AppliedAll l ns l')

include applied

theorem size_eq : l'.orders.size = l.orders.size := by
  induction applied with
  | nil => rfl
  | cons first _ ih => exact ih.trans first.size_eq

theorem history_eq : l'.history = l.history := by
  induction applied with
  | nil => rfl
  | cons first _ ih => exact ih.trans first.history_eq

variable (before : l.Sorted) (ready : l.Ready ns)

include before ready

theorem sorted : l'.Sorted := by
  induction applied with
  | nil => exact before
  | @cons l _ _ n ns first rest ih =>
    have mem := mem_cons_self (a := n) (l := ns)
    exact ih (first.sorted before (ready.whole n mem) (ready.free n mem) (ready.present n mem))
      (first.rest_eq ready).1

theorem position_eq {p : Int}
    (held : l.position id = .int p) : l'.position id = .int (p + Order.total (ns.map l.order) id) := by
  induction applied generalizing p with
  | nil =>
    rw [held]
    simp
  | @cons l _ _ n ns first rest ih =>
    have mem := mem_cons_self (a := n) (l := ns)
    have whole := ready.whole n mem
    have free := ready.free n mem
    have present := ready.present n mem
    obtain ⟨ready', same⟩ := first.rest_eq ready
    rw [ih (first.sorted before whole free present) ready' (first.position_eq before whole free present held), same,
      map_cons, Order.total_cons, Int.add_assoc]

theorem noneFlat (units : ∀ o ∈ ns.map l.order, o.units ≠ 0) (noneFlat : l.NoneFlat) : l'.NoneFlat := by
  induction applied with
  | nil => exact noneFlat
  | @cons l _ _ n ns first rest ih =>
    have mem := mem_cons_self (a := n) (l := ns)
    obtain ⟨ready', same⟩ := first.rest_eq ready
    refine ih (first.sorted before (ready.whole n mem) (ready.free n mem) (ready.present n mem)) ready' ?_
      (first.noneFlat before (units _ (by simp)) noneFlat)
    rw [same]
    exact fun o later => units o (.tail _ later)

end AppliedAll

def entered (l : Ledger) (orders : List Order) : Ledger :=
  { l with orders := l.orders ++ orders.toArray }

def numbersFor (l : Ledger) (orders : List Order) : List Nat :=
  range' l.orders.size orders.length

theorem outcome_enter (orders : List Order) (l : Ledger) :
    outcome (orders.mapM enter) l = (.ok (l.numbersFor orders), l.entered orders) := by
  induction orders generalizing l with
  | nil => simp [numbersFor, entered]
  | cons o orders ih =>
    have first : outcome (enter o) l = (.ok l.orders.size, { l with orders := l.orders.push o }) := rfl
    rw [mapM_cons, bind_ok first, bind_ok (ih _)]
    simp [numbersFor, entered, range'_succ]

variable {orders : List Order}

theorem order_entered_old (old : k < l.orders.size) : (l.entered orders).order k = l.order k := by
  simp [order, entered, Array.getElem?_append_left old]

theorem map_order_entered (l : Ledger) (orders : List Order) :
    (l.numbersFor orders).map (l.entered orders).order = orders := by
  refine ext_getElem (by simp [numbersFor]) fun i _ low => ?_
  simp [numbersFor, order, entered, low]

theorem mem_numbersFor (mem : n ∈ l.numbersFor orders) : l.orders.size ≤ n ∧ n < (l.entered orders).orders.size := by
  simp only [numbersFor, mem_range'_1] at mem
  simpa [entered] using mem

variable (sorted : l.Sorted)

include sorted

theorem Sorted.entered (orders : List Order) : (l.entered orders).Sorted := by
  refine ⟨sorted.keys, sorted.nodup, sorted.apart, sorted.numbers, fun e mem => ?_, fun e mem => ?_⟩
  · exact Nat.lt_of_lt_of_le (sorted.present e mem) (by simp [Ledger.entered])
  · rw [order_entered_old (sorted.present e mem)]
    exact sorted.whole e mem

theorem Sorted.position_entered (id : Value) : (l.entered orders).position id = l.position id :=
  sorted.position_congr (sorted.entered orders) (fun _ _ => Iff.rfl) fun e mem _ => by
    rw [order_entered_old (sorted.present e mem)]

theorem Sorted.ready_entered (whole : ∀ o ∈ orders, o.Whole) : (l.entered orders).Ready (l.numbersFor orders) := by
  refine ⟨nodup_range', fun n mem => (mem_numbersFor mem).2, fun n mem e stored => ?_, fun n mem => ?_⟩
  · have old := sorted.present e stored
    have new := (mem_numbersFor mem).1
    omega
  · have entered : (l.entered orders).order n ∈ (l.numbersFor orders).map (l.entered orders).order :=
      mem_map_of_mem mem
    rw [map_order_entered] at entered
    exact whole _ entered

theorem NoneFlat.entered (noneFlat : l.NoneFlat) (orders : List Order) : (l.entered orders).NoneFlat := by
  intro e mem
  rw [order_entered_old (sorted.present e mem)]
  exact noneFlat e mem

theorem commit_cases (whole : ∀ o ∈ orders, o.Whole) : ∃ l', AppliedAll (l.entered orders) (l.numbersFor orders) l' ∧
      outcome (commit orders) l = (.ok (l.numbersFor orders), { l' with history := l.history ++ [l.numbersFor orders] }) := by
  obtain ⟨l', applies, applied⟩ := forM_apply (sorted.entered orders) (sorted.ready_entered whole)
  refine ⟨l', applied, ?_⟩
  rw [commit, bind_ok (outcome_enter orders l), bind_ok applies]
  have history : l'.history = l.history := applied.history_eq
  rw [← history]
  rfl

theorem Sorted.commit_eq (whole : ∀ o ∈ orders, o.Whole) :
    ∃ l', outcome (commit orders) l = (.ok (l.numbersFor orders), l') ∧ l'.Sorted ∧
      (∀ id p, l.position id = .int p → l'.position id = .int (p + Order.total orders id)) ∧
      (l.NoneFlat → (∀ o ∈ orders, o.units ≠ 0) → l'.NoneFlat) := by
  obtain ⟨l', applied, committed⟩ := commit_cases sorted whole
  have before := sorted.entered orders
  have ready := sorted.ready_entered whole
  have after := applied.sorted before ready
  refine ⟨_, committed, ⟨after.keys, after.nodup, after.apart, after.numbers, after.present, after.whole⟩,
    fun id p held => ?_, fun noneFlat units => ?_⟩
  · have changed := applied.position_eq before ready ((sorted.position_entered id).trans held)
    rw [map_order_entered] at changed
    exact changed
  · refine applied.noneFlat before ready ?_ (noneFlat.entered sorted orders)
    rw [map_order_entered]
    exact units

theorem Sorted.position_whole (id : Value) : ∃ p : Int, l.position id = .int p := by
  by_cases stored : l.Stores id
  · obtain ⟨e, mem, same⟩ := stored
    exact ⟨_, sorted.position_eq mem same⟩
  · exact ⟨0, position_eq_zero stored⟩

theorem Sorted.stores_iff (noneFlat : l.NoneFlat) (id : Value) : l.Stores id ↔ l.position id ≠ .int 0 := by
  constructor
  · rintro ⟨e, mem, same⟩
    rw [sorted.position_eq mem same]
    exact fun zero => noneFlat e mem (int.inj zero)
  · exact fun held => Classical.not_not.mp fun flat => held (position_eq_zero flat)

end Ledger

end PineEngine
