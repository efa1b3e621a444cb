import PineEngine.Proofs.Accounting

/-! # What the record of orders says

The order that opens a position is its record: orders of the name that follow are added to it, until one of them
closes the position. So an order does not stand as it was computed, but as `Order.standing` says. The invariant
(`Ledger.Carried`) tells, for every order that was applied so far, how it stands and whether it holds a position;
one more order changes at most the one that holds the position of its name. The record is as the orders were
computed if every order that meets a position closes it (`Broker.record_standing`).
-/

namespace PineEngine

open Computation List Value

variable {later orders past : List Order} {o : Order} {steps : List (List Order)}

namespace Order

/-- What the holder of a position stands at after one more order, and whether it still holds the position. -/
def hold (id : Value) : Int × Bool → Order → Int × Bool
  | (q, false), _ => (q, false)
  | (q, true), o =>
    if o.id.same id then if q + o.units = 0 then (q, false) else (q + o.units, true) else (q, true)

/-- What the order that opens a position stands at after the orders that follow it. -/
def held (o : Order) (later : List Order) : Int × Bool :=
  later.foldl (hold o.id) (o.units, true)

/-- How an order stands among others: one that opens a position takes up what follows. -/
def stand (past : List Order) (o : Order) (later : List Order) : Order :=
  if total past o.id = 0 then ⟨o.id, .int (o.held later).1⟩ else o

def standing (past : List Order) : List Order → List Order
  | [] => []
  | o :: later => stand past o later :: standing (past ++ [o]) later

def Settling (past : List Order) : List Order → Prop
  | [] => True
  | o :: later => (total past o.id = 0 ∨ total past o.id + o.units = 0) ∧ Settling (past ++ [o]) later

theorem held_nil (o : Order) : o.held [] = (o.units, true) := rfl

theorem held_snoc (o : Order) (later : List Order) (new : Order) :
    o.held (later ++ [new]) = hold o.id (o.held later) new := by
  simp [held]

theorem total_congr {id id' : Value} (orders : List Order) (keys : ∀ o ∈ orders, o.id.isKey) (key : id.isKey)
    (key' : id'.isKey) (same : id.same id') : total orders id = total orders id' := by
  induction orders with
  | nil => rfl
  | cons o orders ih =>
    have keyO := keys o (.head _)
    have names : o.id.same id = o.id.same id' := by
      rw [Bool.eq_iff_iff]
      exact ⟨fun here => same_trans keyO key key' here same,
        fun here => same_trans keyO key' key here (same_symm key key' same)⟩
    rw [total_cons, total_cons, names, ih fun o mem => keys o (.tail _ mem)]

theorem foldl_hold_closed (id : Value) (q : Int) (later : List Order) :
    later.foldl (hold id) (q, false) = (q, false) := by
  induction later with
  | nil => rfl
  | cons o later ih => exact ih

theorem held_of_settling (key : o.id.isKey) (moves : o.units ≠ 0) (past : List Order)
    (keys : ∀ p ∈ past ++ later, p.id.isKey) (position : o.id.same o.id → total past o.id = o.units)
    (settling : Settling past later) : (o.held later).1 = o.units := by
  induction later generalizing past with
  | nil => rfl
  | cons next later ih =>
    rw [held, foldl_cons, hold]
    by_cases same : next.id.same o.id
    · have keyNext := keys next (by simp)
      have met : total past next.id = o.units := by
        rw [← position (same_trans key keyNext key (same_symm keyNext key same) same)]
        exact total_congr past (fun p mem => keys p (by simp [mem])) keyNext key same
      have closed : o.units + next.units = 0 := by
        have settled := settling.1
        omega
      rw [if_pos same, if_pos closed, foldl_hold_closed]
    · rw [if_neg same]
      refine ih (past ++ [next]) (by simpa using keys) ?_ settling.2
      intro self
      rw [total_append, total_cons, if_neg same, position self]
      simp

theorem standing_of_settling (moves : ∀ o ∈ past ++ orders, o.Moves) (settling : Settling past orders) :
    standing past orders = orders := by
  induction orders generalizing past with
  | nil => rfl
  | cons o later ih =>
    have here := moves o (by simp)
    rw [standing, ih (by simpa using moves) settling.2, stand]
    split
    next opened =>
      have held : (o.held later).1 = o.units := by
        refine held_of_settling here.key here.moves (past ++ [o]) ?_ ?_ settling.2
        · intro p mem
          exact (moves p (by simpa using mem)).key
        · intro self
          rw [total_append, total_cons, opened, if_pos self]
          simp
      rw [held, ← here.units]
    next => rfl

end Order

namespace Ledger

variable {l l' : Ledger} {n : Nat} {done : List Order}

/-- A ledger that orders were applied to. The order that opened a position, and no other, holds it until it is
    closed. -/
structure Carried (l : Ledger) (done : List Order) : Prop where
  sorted : l.Sorted
  noneFlat : l.NoneFlat
  named : ∀ e ∈ l.positions, e.1 = (l.order e.2).id
  position : ∀ id, l.position id = .int (Order.total done id)
  stands : ∀ past o later, done = past ++ o :: later → l.order past.length = Order.stand past o later
  holds : ∀ past o later, done = past ++ o :: later →
    (l.Free past.length ↔ ¬ (Order.total past o.id = 0 ∧ (o.held later).2))

theorem Carried.total_eq_zero_iff (carried : l.Carried done) (id : Value) :
    Order.total done id = 0 ↔ ¬ l.Stores id := by
  rw [carried.sorted.stores_iff carried.noneFlat, carried.position]
  simp

theorem Carried.order_eq (carried : l.Carried done) (split : done = past ++ o :: later) {e : Value × Nat}
    (mem : e ∈ l.positions) (here : e.2 = past.length) :
    Order.total past o.id = 0 ∧ (o.held later).2 = true ∧ e.1 = o.id ∧ l.order e.2 = ⟨o.id, .int (o.held later).1⟩ := by
  have holds : Order.total past o.id = 0 ∧ (o.held later).2 := by
    refine Classical.not_not.mp fun free => ?_
    exact (carried.holds past o later split).mpr free e mem here
  have stands := carried.stands past o later split
  rw [Order.stand, if_pos holds.1] at stands
  refine ⟨holds.1, holds.2, ?_, here ▸ stands⟩
  rw [carried.named e mem, here, stands]

section

variable (carried : l.Carried done) (applied : Applied l n l') (moves : (l.order n).Moves) (next : n = done.length)
  (vacant : l.Free n) (present : n < l.orders.size)
include carried applied moves next vacant present

omit next present in
theorem Carried.last :
    l'.order n = Order.stand done (l.order n) [] ∧
      (l'.Free n ↔ ¬ (Order.total done (l.order n).id = 0 ∧ ((l.order n).held []).2)) := by
  constructor
  · rw [applied.order_eq vacant, Order.stand, Order.held_nil]
    split
    · rw [← moves.toWhole.units]
    · rfl
  · rw [carried.total_eq_zero_iff, Order.held_nil]
    cases applied with
    | opened flat => simp [flat, Free]
    | closed e mem same =>
      have stored : l.Stores (l.order n).id := ⟨e, mem, same⟩
      simp only [stored, not_true_eq_false, false_and, not_false_eq_true, iff_true]
      exact fun d amongD => vacant d (mem_filter.mp amongD).1
    | changed e mem same =>
      have stored : l.Stores (l.order n).id := ⟨e, mem, same⟩
      simp only [stored, not_true_eq_false, false_and, not_false_eq_true, iff_true]
      exact vacant

omit vacant present in
theorem Carried.earlier (split : done = past ++ o :: later) :
    l'.order past.length = Order.stand past o (later ++ [l.order n]) ∧
      (l'.Free past.length ↔ ¬ (Order.total past o.id = 0 ∧ (o.held (later ++ [l.order n])).2)) := by
  have old : past.length ≠ n := by
    rw [next, split]
    simp
  rw [Order.stand, Order.held_snoc]
  by_cases free : l.Free past.length
  · -- An order that holds no position is as it was.
    have stands := carried.stands past o later split
    have holds := (carried.holds past o later split).mp free
    rw [applied.order_eq free, stands, Order.stand]
    have same : Order.total past o.id = 0 → Order.hold o.id (o.held later) (l.order n) = o.held later := by
      intro opened
      have closed : (o.held later).2 = false := by simpa using fun open_ => holds ⟨opened, open_⟩
      rcases state : o.held later with ⟨q, _ | _⟩
      · rfl
      · simp [state] at closed
    refine ⟨?_, fun _ held => ?_, fun _ => applied.free free old⟩
    · split
      next opened => rw [same opened]
      next => rfl
    · exact holds ⟨held.1, same held.1 ▸ held.2⟩
  · obtain ⟨e, mem, here⟩ : ∃ e ∈ l.positions, e.2 = past.length := by
      simpa [Free] using free
    obtain ⟨opened, open_, name, order⟩ := carried.order_eq split mem here
    rw [if_pos opened]
    simp only [opened, true_and]
    have state : o.held later = ((o.held later).1, true) := by rw [← open_]
    have units : (l.order e.2).units = (o.held later).1 := by rw [order]; rfl
    rw [state, Order.hold]
    by_cases same : (l.order n).id.same o.id
    · have keyE := carried.sorted.keys e mem
      have same' : e.1.same (l.order n).id := by
        rw [name] at keyE ⊢
        exact same_symm moves.toWhole.key keyE same
      rw [if_pos same]
      cases applied with
      | opened flat => exact absurd ⟨e, mem, same'⟩ flat
      | closed d amongD sameD zero =>
        cases carried.sorted.eq_of_same mem amongD same' sameD
        rw [units] at zero
        rw [if_pos zero]
        refine ⟨?_, fun _ => nofun, fun _ c amongC number => ?_⟩
        · rw [← here]
          exact order
        · have left := (mem_filter.mp amongC).2
          simp [number, here] at left
      | changed d amongD sameD left =>
        cases carried.sorted.eq_of_same mem amongD same' sameD
        rw [units] at left
        rw [if_neg left]
        refine ⟨?_, fun free => absurd here (free e mem), fun held => absurd rfl held⟩
        rw [← here, order_set_eq _ (carried.sorted.present e mem), units, order]
    · rw [if_neg same]
      have apart {d : Value × Nat} (amongD : d ∈ l.positions) (sameD : d.1.same (l.order n).id) : e.2 ≠ d.2 := by
        intro number
        cases carried.sorted.numbers e mem d amongD number
        exact same (name ▸ same_symm (carried.sorted.keys e mem) moves.toWhole.key sameD)
      cases applied with
      | opened flat =>
        refine ⟨here ▸ order, fun free => absurd here (free e (by simp [mem])), fun held => absurd rfl held⟩
      | closed d amongD sameD =>
        refine ⟨here ▸ order, fun free => absurd here (free e ?_), fun held => absurd rfl held⟩
        exact mem_filter.mpr ⟨mem, by simpa using apart amongD sameD⟩
      | changed d amongD sameD =>
        refine ⟨?_, fun free => absurd here (free e mem), fun held => absurd rfl held⟩
        rw [← here, order_set_ne _ (apart amongD sameD)]
        exact order

theorem Carried.apply : l'.Carried (done ++ [l.order n]) := by
  have whole := moves.toWhole
  have last := carried.last applied moves vacant
  -- A split of the longer list ends with the new order, or leaves it among those that follow.
  have splits {past later : List Order} {o : Order} (split : done ++ [l.order n] = past ++ o :: later) :
      (past = done ∧ o = l.order n ∧ later = []) ∨ ∃ rest, later = rest ++ [l.order n] ∧ done = past ++ o :: rest := by
    rcases eq_nil_or_concat later with rfl | ⟨rest, new, rfl⟩
    · obtain ⟨same, only⟩ := append_inj' split rfl
      cases only
      exact .inl ⟨same.symm, rfl, rfl⟩
    · rw [concat_eq_append, ← cons_append, ← append_assoc] at split
      obtain ⟨same, only⟩ := append_inj' split rfl
      cases only
      exact .inr ⟨rest, concat_eq_append, same⟩
  refine ⟨applied.sorted carried.sorted whole vacant present, applied.noneFlat carried.sorted moves.moves carried.noneFlat,
    ?_, fun id => ?_, fun past o later split => ?_, fun past o later split => ?_⟩
  · intro e mem
    cases applied with
    | opened =>
      rcases mem_append.mp mem with old | new
      · exact carried.named e old
      · cases mem_singleton.mp new
        rfl
    | closed => exact carried.named e (mem_filter.mp mem).1
    | changed d amongD =>
      by_cases here : e.2 = d.2
      · rw [here, order_set_eq _ (carried.sorted.present d amongD), ← here]
        exact carried.named e mem
      · rw [order_set_ne _ here]
        exact carried.named e mem
  · rw [applied.position_eq carried.sorted whole vacant present (carried.position id), Order.total_append,
      Order.total_cons, Order.total_nil, Int.add_zero]
  · rcases splits split with ⟨rfl, rfl, rfl⟩ | ⟨rest, rfl, before⟩
    · rw [← next]
      exact last.1
    · exact (carried.earlier applied moves next before).1
  · rcases splits split with ⟨rfl, rfl, rfl⟩ | ⟨rest, rfl, before⟩
    · rw [← next]
      exact last.2
    · exact (carried.earlier applied moves next before).2

end

theorem AppliedAll.carried {ns : List Nat} (applied : AppliedAll l ns l') (before : l.Carried done) (ready : l.Ready ns)
    (moves : ∀ n ∈ ns, (l.order n).units ≠ 0) (next : ns = range' done.length ns.length) :
    l'.Carried (done ++ ns.map l.order) := by
  induction applied generalizing done with
  | nil => simpa using before
  | @cons l _ _ n ns first rest ih =>
    have mem := mem_cons_self (a := n) (l := ns)
    obtain ⟨ready', same⟩ := first.rest_eq ready
    obtain ⟨here, next⟩ := List.cons.inj next
    have one := before.apply first ⟨ready.whole n mem, moves n mem⟩ here (ready.free n mem) (ready.present n mem)
    have all := ih one ready' ?_ (by simpa using next)
    · rw [map_cons, ← same]
      simpa using all
    · intro k later
      have order : _ = l.order k := first.order_eq (ready.free k (.tail _ later))
      rw [order]
      exact moves k (.tail _ later)

structure Recorded (l : Ledger) (steps : List (List Order)) : Prop where
  carried : l.Carried steps.flatten
  size : l.orders.size = steps.flatten.length
  numbers : l.history.flatten = range steps.flatten.length
  lengths : l.history.map length = steps.map length
  moves : ∀ o ∈ steps.flatten, o.Moves

theorem Carried.entered (carried : l.Carried done) (orders : List Order) (size : l.orders.size = done.length) :
    (l.entered orders).Carried done := by
  have same {past later : List Order} {o : Order} (split : done = past ++ o :: later) :
      (l.entered orders).order past.length = l.order past.length := by
    refine order_entered_old ?_
    rw [size, split]
    simp
  refine ⟨carried.sorted.entered orders, carried.noneFlat.entered carried.sorted orders, fun e mem => ?_,
    fun id => ?_, fun past o later split => ?_, carried.holds⟩
  · rw [order_entered_old (carried.sorted.present e mem)]
    exact carried.named e mem
  · rw [carried.sorted.position_entered]
    exact carried.position id
  · rw [same split]
    exact carried.stands past o later split

theorem Recorded.commit (recorded : l.Recorded steps) (moves : ∀ o ∈ orders, o.Moves) {numbers : List Nat}
    (committed : outcome (Ledger.commit orders) l = (.ok numbers, l')) : l'.Recorded (steps ++ [orders]) := by
  have whole : ∀ o ∈ orders, o.Whole := fun o mem => (moves o mem).toWhole
  have sorted := recorded.carried.sorted
  obtain ⟨l₁, applied, committed'⟩ := commit_cases sorted whole
  cases committed.symm.trans committed'
  have all := applied.carried (recorded.carried.entered orders recorded.size) (sorted.ready_entered whole) ?_ ?_
  · rw [map_order_entered] at all
    refine ⟨?_, ?_, ?_, ?_, ?_⟩
    · rw [flatten_append, flatten_singleton]
      exact ⟨⟨all.sorted.keys, all.sorted.nodup, all.sorted.apart, all.sorted.numbers, all.sorted.present, all.sorted.whole⟩,
        all.noneFlat, all.named, all.position, all.stands, all.holds⟩
    · rw [applied.size_eq]
      simp [Ledger.entered, recorded.size]
    · have joined := range'_append_1 (s := 0) (m := steps.flatten.length) (n := orders.length)
      rw [Nat.zero_add] at joined
      simp only [flatten_append, flatten_singleton, length_append, recorded.numbers, numbersFor,
        recorded.size, range_eq_range', joined]
    · simp [recorded.lengths, numbersFor]
    · rw [flatten_append, flatten_singleton]
      exact fun o mem => (mem_append.mp mem).elim (recorded.moves o) (moves o)
  · intro n mem
    have entered : (l.entered orders).order n ∈ (l.numbersFor orders).map (l.entered orders).order :=
      mem_map_of_mem mem
    rw [map_order_entered] at entered
    exact (moves _ entered).moves
  · simp [numbersFor, recorded.size]

theorem Carried.map_order (past : List Order) (carried : l.Carried (past ++ orders)) :
    (range' past.length orders.length).map l.order = Order.standing past orders := by
  induction orders generalizing past with
  | nil => rfl
  | cons o later ih =>
    rw [length_cons, range'_succ, map_cons, Order.standing, carried.stands past o later rfl]
    have rest := ih (past ++ [o]) (by simpa using carried)
    rw [← rest, length_append, length_singleton]

theorem Recorded.record_eq (recorded : l.Recorded steps) :
    l.record.flatten = Order.standing [] steps.flatten ∧ l.record.map length = steps.map length := by
  constructor
  · rw [record, ← map_flatten, recorded.numbers, range_eq_range']
    exact recorded.carried.map_order []
  · rw [← recorded.lengths, record, map_map]
    exact map_congr_left fun step _ => length_map ..

end Ledger

namespace Broker

variable {b : Broker} {quantity : Int} {l : Ledger}

def Call.computes (b : Broker) : Call → List (List Order)
  | .step =>
    match b.book with
    | .ledger l =>
      match (l.plan b.settings.quantity b.actions).2 with
      | .ok orders => [orders]
      | .error _ => []
    | _ => []
  | _ => []

/-- The orders of each step that was carried out in the course of some calls, as they were computed. -/
def computed (b : Broker) : List Call → List (List Order)
  | [] => []
  | c :: calls => c.computes b ++ computed (leaves c.perform b) calls

theorem book_of_call {c : Call} (other : c ≠ .step) : (leaves c.perform b).book = b.book := by
  cases c with
  | entry kws =>
    show (leaves (entry kws) b).book = _
    rcases leaves_entry kws b with same | added
    · rw [same]
    · rw [added]
  | close | closeAll => rfl
  | step => exact absurd rfl other

theorem Whole.recorded_call (whole : b.Whole quantity l) (recorded : l.Recorded steps) {c : Call} (h : c.Whole) :
    ∃ l', (leaves c.perform b).Whole quantity l' ∧ l'.Recorded (steps ++ c.computes b) := by
  obtain ⟨l', whole'⟩ := whole.call h
  refine ⟨l', whole', ?_⟩
  by_cases other : c ≠ .step
  · have same : Book.ledger l' = .ledger l := by rw [← whole'.book, book_of_call other, whole.book]
    cases same
    have none : c.computes b = [] := by cases c <;> first | rfl | exact absurd rfl other
    rw [none, append_nil]
    exact recorded
  · cases Classical.not_not.mp other
    have stepped := step_cases whole
    have book := whole'.book
    have left : leaves (Call.perform .step) b = leaves step b := leaves_bind_pure ..
    rw [left, leaves] at book
    rw [Call.computes, whole.book, whole.quantity]
    dsimp only
    cases planned : (l.plan (.int quantity) b.actions).2 with
    | error e =>
      rw [planned] at stepped
      rw [stepped] at book
      cases whole.book.symm.trans book
      simpa using recorded
    | ok orders =>
      rw [planned] at stepped
      obtain ⟨moves, l₁, committed, stepped⟩ := stepped
      rw [stepped] at book
      cases book
      exact recorded.commit moves committed

theorem Whole.recorded_after (whole : b.Whole quantity l) (recorded : l.Recorded steps) {calls : List Call}
    (h : ∀ c ∈ calls, c.Whole) :
    ∃ l', (b.after calls).Whole quantity l' ∧ l'.Recorded (steps ++ computed b calls) := by
  induction calls generalizing b l steps with
  | nil => exact ⟨l, whole, by simpa [computed] using recorded⟩
  | cons c calls ih =>
    obtain ⟨l₁, whole₁, recorded₁⟩ := whole.recorded_call recorded (h c (.head _))
    obtain ⟨l', whole', recorded'⟩ := ih whole₁ recorded₁ fun c mem => h c (.tail _ mem)
    exact ⟨l', whole', by simpa [computed] using recorded'⟩

/-- Whatever was asked of a broker in whole quantities: a position is the sum of all orders of its name, as they were
    computed. The record has these orders too, but the one that opened a position stands at what became of it. If
    every order that meets a position closes it, then the record has the orders as they were computed, and a position
    is the sum of the orders of its name in the record. -/
theorem record_standing {settings : BrokerSettings} (default : settings.quantity = .int quantity) {calls : List Call}
    (given : ∀ c ∈ calls, c.Whole) :
    let steps := computed { settings, book := .ledger {} } calls
    ∃ l, (after { settings, book := .ledger {} } calls).book = .ledger l ∧
      (∀ id, l.position id = .int (Order.total steps.flatten id)) ∧
      l.record.flatten = Order.standing [] steps.flatten ∧
      l.record.map length = steps.map length ∧
      (Order.Settling [] steps.flatten →
        l.record = steps ∧ ∀ id, l.position id = .int (Order.total l.record.flatten id)) := by
  intro steps
  have fresh : Ledger.Recorded {} [] := by
    refine ⟨⟨(fresh_whole default).sorted, nofun, nofun, fun _ => rfl, ?_, ?_⟩, rfl, rfl, rfl, nofun⟩ <;> simp
  obtain ⟨l, whole, recorded⟩ := (fresh_whole default).recorded_after fresh given
  rw [nil_append] at recorded
  obtain ⟨record, lengths⟩ := recorded.record_eq
  refine ⟨l, whole.book, recorded.carried.position, record, lengths, fun settling => ?_⟩
  have same : l.record = steps := by
    rw [eq_iff_flatten_eq, record, Order.standing_of_settling recorded.moves settling]
    exact ⟨rfl, lengths⟩
  rw [same]
  exact ⟨rfl, recorded.carried.position⟩

def alternating : List Call :=
  [.entry (entryOf "a" true 5), .step, .close [("id", .text "a")], .step, .entry (entryOf "a" false 3), .step]

theorem record_standing_alternating :
    (∀ c ∈ alternating, c.Whole) ∧
      computed { settings := { quantity := .int 1 }, book := .ledger {} } alternating =
        [[⟨.text "a", .int 5⟩], [⟨.text "a", .int (-5)⟩], [⟨.text "a", .int (-3)⟩]] ∧
      ∃ l, (after { settings := { quantity := .int 1 }, book := .ledger {} } alternating).book = .ledger l ∧
        l.record = [[⟨.text "a", .int 5⟩], [⟨.text "a", .int (-5)⟩], [⟨.text "a", .int (-3)⟩]] ∧
        l.position (.text "a") = .int (-3) := by
  have given : ∀ c ∈ alternating, c.Whole := by simp [alternating]
  obtain ⟨l, book, position, _, _, settled⟩ :=
    record_standing (rfl : ({ quantity := .int 1 } : BrokerSettings).quantity = .int 1) given
  exact ⟨given, rfl, l, book, (settled ⟨.inl rfl, .inr rfl, .inl rfl, trivial⟩).1, position (.text "a")⟩

/-- Two entries of one name in one step: the first order stands at the sum of both. -/
theorem record_counts_twice :
    let calls := [.entry (entryOf "a" true 1), .entry (entryOf "a" true 3), .step]
    (∀ c ∈ calls, c.Whole) ∧
      computed { settings := { quantity := .int 1 }, book := .ledger {} } calls =
        [[⟨.text "a", .int 1⟩, ⟨.text "a", .int 3⟩]] ∧
      ∃ l, (after { settings := { quantity := .int 1 }, book := .ledger {} } calls).book = .ledger l ∧
        l.record = [[⟨.text "a", .int 4⟩, ⟨.text "a", .int 3⟩]] ∧
        l.position (.text "a") = .int 4 ∧ Order.total l.record.flatten (.text "a") = 7 := by
  intro calls
  exact ⟨by simp [calls], rfl, _, rfl, rfl, rfl, rfl⟩

end Broker

end PineEngine
