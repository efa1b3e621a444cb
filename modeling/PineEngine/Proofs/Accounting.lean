import PineEngine.Proofs.Planning

/-! # Position accounting

A broker of whole quantities stays one, whatever is asked of it (`Broker.Whole`). So every step changes every
position by the sum of its orders of that name (`Broker.step_positions`). When all actions only close, this sum is
known: every action that closes a name takes away what the position was before the step, so a position that is
closed once is flat, and one that is closed again changes sides (`Broker.step_closes`).
-/

namespace PineEngine

open Computation

namespace Broker

variable {settings : BrokerSettings} {orders : List Order} {l' : Ledger}

inductive Call where
  | entry (kws : Fields)
  | close (kws : Fields)
  | closeAll (kws : Fields)
  | step

def Call.perform : Call → BrokerM Unit
  | .entry kws => Broker.entry kws
  | .close kws => Broker.close kws
  | .closeAll kws => Broker.closeAll kws
  | .step => do let _ ← Broker.step

def Call.Whole : Call → Prop
  | .entry kws => ∀ v, kws.lookup "qty" = some v → Ledger.WholeQuantity v
  | _ => True

/-- The broker after some calls. What a call changed before it failed stays. -/
def after (b : Broker) (calls : List Call) : Broker :=
  calls.foldl (fun b c => leaves c.perform b) b

/-- A broker with a ledger, whole quantities, and no position of zero. -/
structure Whole (b : Broker) (quantity : Int) (l : Ledger) : Prop where
  book : b.book = .ledger l
  quantity : b.settings.quantity = .int quantity
  actions : ∀ a ∈ b.actions, Ledger.WholeAction a
  sorted : l.Sorted
  noneFlat : l.NoneFlat

variable {b : Broker} {quantity : Int} {l : Ledger}

theorem leaves_entry (kws : Fields) (b : Broker) : leaves (entry kws) b = b ∨
    leaves (entry kws) b = { b with actions := b.actions ++ [kws.set "action" (.text "entry")] } := by
  unfold entry
  dsimp only
  split
  · exact .inl rfl
  · split
    · exact .inl rfl
    · split
      · exact .inl rfl
      · exact .inr rfl

theorem Whole.add (whole : b.Whole quantity l) {a : Action} (action : Ledger.WholeAction a) :
    Whole { b with actions := b.actions ++ [a] } quantity l := by
  refine ⟨whole.book, whole.quantity, fun a' mem => ?_, whole.sorted, whole.noneFlat⟩
  rcases List.mem_append.mp mem with old | new
  · exact whole.actions a' old
  · cases List.mem_singleton.mp new
    exact action

theorem not_isEntry {kws : Fields} {kind : String} (other : kind ≠ "entry") :
    ¬ Ledger.IsEntry (kws.set "action" (.text kind)) := by
  rintro ⟨v, named, entered⟩
  rw [Ledger.lookup_set, if_pos (beq_self_eq_true _)] at named
  cases named
  exact other (eq_of_beq (show (kind == "entry") = true by simpa [Value.same] using entered))

variable {actions : List Action}

theorem step_eq_ok (book : b.book = .ledger l) {numbers : List Nat}
    (planned : l.plan b.settings.quantity b.actions = (actions, .ok orders))
    (committed : outcome (Ledger.commit orders) l = (.ok numbers, l')) :
    outcome step b = (.ok (some numbers), { b with actions := [], book := .ledger l' }) := by
  unfold step
  rw [get_bind]
  rw [book]
  dsimp only
  rw [planned]
  change outcome (match outcome (Ledger.commit orders) l with
    | (r, l) => do
      modify fun b => { b with book := .ledger l }
      pure (some (← r)) : BrokerM (Option (List Nat))) { b with actions := [], book := .ledger l } = _
  rw [committed]
  rfl

theorem step_eq_error (book : b.book = .ledger l) {e : Fault}
    (planned : l.plan b.settings.quantity b.actions = (actions, .error e)) :
    outcome step b = (.error e, { b with actions := actions }) := by
  unfold step
  rw [get_bind]
  rw [book]
  dsimp only
  rw [planned]
  rfl

theorem step_cases (whole : b.Whole quantity l) :
    match (l.plan (.int quantity) b.actions).2 with
    | .error e => outcome step b = (.error e, { b with actions := (l.plan (.int quantity) b.actions).1 })
    | .ok orders => (∀ o ∈ orders, o.Moves) ∧ ∃ l', outcome (Ledger.commit orders) l = (.ok (l.numbersFor orders), l') ∧
        outcome step b = (.ok (some (l.numbersFor orders)), { b with actions := [], book := .ledger l' }) := by
  rcases planned : l.plan (.int quantity) b.actions with ⟨actions, e | orders⟩
  · rw [← whole.quantity] at planned
    exact step_eq_error whole.book planned
  · have moves := whole.sorted.plan_moves whole.noneFlat whole.actions (congrArg Prod.snd planned)
    obtain ⟨l', committed, _⟩ := whole.sorted.commit_eq fun o mem => (moves o mem).toWhole
    rw [← whole.quantity] at planned
    exact ⟨moves, l', committed, step_eq_ok whole.book planned committed⟩

theorem Whole.call (whole : b.Whole quantity l) {c : Call} (h : c.Whole) :
    ∃ l', (leaves c.perform b).Whole quantity l' := by
  cases c with
  | entry kws =>
    rcases leaves_entry kws b with same | added
    · exact ⟨l, same.symm ▸ whole⟩
    · refine ⟨l, added ▸ whole.add fun _ v found => h v ?_⟩
      rwa [Ledger.lookup_set, if_neg (by decide)] at found
  | close | closeAll => exact ⟨l, whole.add fun entry => absurd entry (not_isEntry (by decide))⟩
  | step =>
    have stepped := step_cases whole
    have left : leaves (Call.perform .step) b = leaves step b := leaves_bind_pure ..
    rw [left]
    cases planned : (l.plan (.int quantity) b.actions).2 with
    | error e =>
      rw [planned] at stepped
      rw [leaves, stepped]
      exact ⟨l, whole.book, whole.quantity, Ledger.plan_whole whole.actions, whole.sorted, whole.noneFlat⟩
    | ok orders =>
      rw [planned] at stepped
      obtain ⟨moves, l', committed, stepped⟩ := stepped
      obtain ⟨_, committed', sorted, _, noneFlat⟩ := whole.sorted.commit_eq fun o mem => (moves o mem).toWhole
      cases committed.symm.trans committed'
      rw [leaves, stepped]
      exact ⟨l', rfl, whole.quantity, by simp, sorted, noneFlat whole.noneFlat fun o mem => (moves o mem).moves⟩

theorem Whole.after (whole : b.Whole quantity l) {calls : List Call} (h : ∀ c ∈ calls, c.Whole) :
    ∃ l', (b.after calls).Whole quantity l' := by
  induction calls generalizing b l with
  | nil => exact ⟨l, whole⟩
  | cons c calls ih =>
    obtain ⟨l₁, first⟩ := whole.call (h c (.head _))
    exact ih first fun c mem => h c (.tail _ mem)

theorem fresh_whole (default : settings.quantity = .int quantity) :
    Whole { settings, book := .ledger {} } quantity {} :=
  ⟨rfl, default, nofun, ⟨nofun, .nil, nofun, nofun, nofun, nofun⟩, nofun⟩

def entryOf (id : String) (long : Bool) (qty : Int) : Fields :=
  [("id", .text id), ("long", .bool long), ("qty", .int qty), ("oca_type", .text "")]

@[simp] theorem Call.close_whole (kws : Fields) : (Call.close kws).Whole := trivial

@[simp] theorem Call.step_whole : Call.step.Whole := trivial

@[simp] theorem entryOf_whole (id : String) (long : Bool) (qty : Int) : (Call.entry (entryOf id long qty)).Whole := by
  intro v found
  cases found
  exact .inl ⟨qty, rfl⟩

theorem sorted_of_after (default : settings.quantity = .int quantity) {calls : List Call}
    (h : ∀ c ∈ calls, c.Whole) (reached : (after { settings, book := .ledger {} } calls).book = .ledger l) :
    l.Sorted := by
  obtain ⟨l', whole⟩ := (fresh_whole default).after h
  cases reached.symm.trans whole.book
  exact whole.sorted

structure Accounts (l : Ledger) (orders : List Order) (l' : Ledger) : Prop where
  position : ∀ id, ∃ p : Int, l.position id = .int p ∧ l'.position id = .int (p + Order.total orders id)
  stored : ∀ id, l'.Stores id ↔ l'.position id ≠ .int 0
  kept : ∀ o ∈ l'.holdings, o.qty ≠ .int 0

theorem commit_accounts (whole : b.Whole quantity l) (moves : ∀ o ∈ orders, o.Moves) :
    ∃ l', outcome (Ledger.commit orders) l = (.ok (l.numbersFor orders), l') ∧ Accounts l orders l' := by
  obtain ⟨l', committed, sorted, changed, noneFlat⟩ := whole.sorted.commit_eq fun o mem => (moves o mem).toWhole
  have noneFlat := noneFlat whole.noneFlat fun o mem => (moves o mem).moves
  refine ⟨l', committed, fun id => ?_, sorted.stores_iff noneFlat, fun o mem => ?_⟩
  · obtain ⟨p, held⟩ := whole.sorted.position_whole id
    exact ⟨p, held, changed id p held⟩
  · obtain ⟨e, stored, rfl⟩ := List.mem_map.mp mem
    rw [sorted.whole e stored]
    exact fun zero => noneFlat e stored (Value.int.inj zero)

/-- Whatever was asked of a broker before in whole quantities: a step that cannot plan its orders leaves the
    positions alone. Any other changes every position by the sum of its orders of that name, and keeps just the
    positions that are not zero, in whatever order the orders are applied. -/
theorem step_positions {settings : BrokerSettings} (default : settings.quantity = .int quantity) {calls : List Call}
    (given : ∀ c ∈ calls, c.Whole) :
    let b := after { settings, book := .ledger {} } calls
    ∃ l, b.book = .ledger l ∧
      match (l.plan b.settings.quantity b.actions).2 with
      | .error e => outcome step b = (.error e, { b with actions := (l.plan b.settings.quantity b.actions).1 })
      | .ok orders => ∃ l', outcome step b = (.ok (some (l.numbersFor orders)), { b with actions := [], book := .ledger l' }) ∧
          Accounts l orders l' ∧
          ∀ orders', orders.Perm orders' → ∃ l'', outcome (Ledger.commit orders') l = (.ok (l.numbersFor orders'), l'') ∧
            ∀ id, l''.position id = l'.position id ∧ (l''.Stores id ↔ l'.Stores id) := by
  intro b
  obtain ⟨l, whole⟩ := (fresh_whole default).after given
  refine ⟨l, whole.book, ?_⟩
  have stepped := step_cases whole
  rw [whole.quantity]
  cases planned : (l.plan (.int quantity) b.actions).2 with
  | error e =>
    rw [planned] at stepped
    exact stepped
  | ok orders =>
    rw [planned] at stepped
    obtain ⟨moves, l', committed, stepped⟩ := stepped
    obtain ⟨_, committed', accounts⟩ := commit_accounts whole moves
    cases committed.symm.trans committed'
    refine ⟨l', stepped, accounts, fun orders' perm => ?_⟩
    obtain ⟨l'', committed'', accounts''⟩ := commit_accounts whole fun o among => moves o (perm.mem_iff.mpr among)
    have same (id : Value) : l''.position id = l'.position id := by
      obtain ⟨p, held, changed⟩ := accounts.position id
      obtain ⟨p', held', changed'⟩ := accounts''.position id
      cases held.symm.trans held'
      rw [changed, changed', Order.total_perm perm]
    exact ⟨l'', committed'', fun id => ⟨same id, by rw [accounts''.stored, accounts.stored, same]⟩⟩

/-- A position that is closed twice and entered again in one step. -/
def reopening : List Call :=
  [.entry (entryOf "a" true 5), .step, .close [("id", .text "a")], .close [("id", .text "a")], .entry (entryOf "a" true 20)]

theorem reopening_whole : ∀ c ∈ reopening, c.Whole := by
  simp [reopening]

def fiver : Ledger :=
  { orders := #[⟨.text "a", .int 5⟩], positions := [(.text "a", 0)], history := [[0]] }

theorem step_positions_reopening :
    let b := after { settings := { quantity := .int 1 }, book := .ledger {} } reopening
    b.book = .ledger fiver ∧
      ∃ l', outcome step b = (.ok (some [1, 2, 3]), { b with actions := [], book := .ledger l' }) ∧
        Accounts fiver [⟨.text "a", .int (-5)⟩, ⟨.text "a", .int (-5)⟩, ⟨.text "a", .int 10⟩] l' := by
  intro b
  have book : b.book = .ledger fiver := rfl
  obtain ⟨l, book', stepped⟩ :=
    step_positions (rfl : ({ quantity := .int 1 } : BrokerSettings).quantity = .int 1) reopening_whole
  cases book.symm.trans book'
  obtain ⟨l', stepped, accounts, _⟩ := stepped
  exact ⟨book, l', stepped, accounts⟩

/-- What closing is meant to do: what is closed is flat, all else stays, and no position changes sides. -/
structure Flattened (actions : List Action) (l l' : Ledger) : Prop where
  closed : ∀ id, (∃ a ∈ actions, Ledger.closes a id) → l'.position id = .int 0
  others : ∀ id, (∀ a ∈ actions, ¬ Ledger.closes a id) → l'.position id = l.position id
  sides : ∀ id (p q : Int), l.position id = .int p → l'.position id = .int q → ¬ (p < 0 ∧ 0 < q) ∧ ¬ (0 < p ∧ q < 0)

theorem flattened_iff (sorted : l.Sorted)
    (left : ∀ id p, l.position id = .int p → l'.position id = .int (p - actions.countP (Ledger.closes · id) * p)) :
    Flattened actions l l' ↔ ∀ id, l.position id ≠ .int 0 → actions.countP (Ledger.closes · id) ≤ 1 := by
  constructor
  · intro flattened id held
    obtain ⟨p, position⟩ := sorted.position_whole id
    by_cases closed : ∃ a ∈ actions, Ledger.closes a id
    · have zero := Value.int.inj ((left id p position).symm.trans (flattened.closed id closed))
      have nonzero : p ≠ 0 := fun zero => held (zero ▸ position)
      have once : ((1 : Int) - actions.countP (Ledger.closes · id)) * p = 0 := by
        rw [Int.sub_mul, Int.one_mul]
        exact zero
      rcases Int.mul_eq_zero.mp once with once | zero
      · omega
      · exact absurd zero nonzero
    · have none : actions.countP (Ledger.closes · id) = 0 :=
        List.countP_eq_zero.mpr fun a mem closes => closed ⟨a, mem, closes⟩
      omega
  · intro once
    have cases (id : Value) (p : Int) (position : l.position id = .int p) :
        p = 0 ∨ actions.countP (Ledger.closes · id) ≤ 1 := by
      by_cases zero : p = 0
      · exact .inl zero
      · exact .inr (once id fun flat => zero (Value.int.inj (position.symm.trans flat)))
    constructor
    · rintro id closed
      obtain ⟨p, position⟩ := sorted.position_whole id
      rw [left id p position]
      rcases cases id p position with rfl | most
      · simp
      · have least : 0 < actions.countP (Ledger.closes · id) := List.countP_pos_iff.mpr closed
        have exactly : actions.countP (Ledger.closes · id) = 1 := by omega
        simp [exactly]
    · intro id others
      obtain ⟨p, position⟩ := sorted.position_whole id
      have none : actions.countP (Ledger.closes · id) = 0 := List.countP_eq_zero.mpr others
      rw [left id p position, position, none]
      simp
    · intro id p q before after
      rw [left id p before] at after
      cases after
      rcases cases id p before with rfl | most
      · simp
      · obtain none | once : actions.countP (Ledger.closes · id) = 0 ∨ actions.countP (Ledger.closes · id) = 1 := by omega
        · rw [none]
          omega
        · rw [once]
          omega

/-- A step that only closes succeeds, and takes from every position all that it was before the step, once for
    each action that closes it. So it does what it is meant to do just if no position is closed twice. -/
theorem step_closes (book : b.book = .ledger l) (sorted : l.Sorted) (closing : ∀ a ∈ b.actions, Ledger.Closing a) :
    ∃ numbers l', outcome step b = (.ok (some numbers), { b with actions := [], book := .ledger l' }) ∧
      (∀ id p, l.position id = .int p →
        l'.position id = .int (p - b.actions.countP (Ledger.closes · id) * p)) ∧
      (l.NoneFlat → ∀ id, l'.Stores id ↔ l'.position id ≠ .int 0) ∧
      (Flattened b.actions l l' ↔ ∀ id, l.position id ≠ .int 0 → b.actions.countP (Ledger.closes · id) ≤ 1) := by
  obtain ⟨orders, planned, whole, total⟩ := sorted.plan_closing b.settings.quantity closing
  obtain ⟨l', committed, sorted', changed, noneFlat⟩ := sorted.commit_eq fun o among => (whole o among).1
  have left (id : Value) (p : Int) (position : l.position id = .int p) :
      l'.position id = .int (p - b.actions.countP (Ledger.closes · id) * p) := by
    rw [changed id p position, total id p position]
    rfl
  refine ⟨_, l', step_eq_ok book planned committed, left, ?_, flattened_iff sorted left⟩
  intro before
  exact sorted'.stores_iff (noneFlat before fun o among => (whole o among).2 before)

def twoSided : Ledger :=
  { orders := #[⟨.text "a", .int 5⟩, ⟨.text "b", .int (-3)⟩]
    positions := [(.text "a", 0), (.text "b", 1)]
    history := [[0, 1]] }

theorem twoSided_sorted : twoSided.Sorted := by
  have h : ∀ c ∈ [Call.entry (entryOf "a" true 5), .entry (entryOf "b" false 3), .step], c.Whole := by simp
  exact sorted_of_after (rfl : ({ quantity := .int 1 } : BrokerSettings).quantity = .int 1) h rfl

def closeOf (id : String) : Action :=
  [("id", .text id), ("action", .text "close")]

theorem closeOf_closing (id : String) : Ledger.Closing (closeOf id) :=
  .one (.text id) rfl rfl rfl

theorem step_closes_twoSided :
    twoSided.Sorted ∧ (∀ a ∈ [closeOf "b", closeOf "c", closeOf "c"], Ledger.Closing a) ∧
      ∃ numbers l', outcome step { actions := [closeOf "b", closeOf "c", closeOf "c"], book := .ledger twoSided } =
          (.ok (some numbers), { actions := [], book := .ledger l' }) ∧
        l'.position (.text "a") = .int 5 ∧ l'.position (.text "b") = .int 0 ∧
        Flattened [closeOf "b", closeOf "c", closeOf "c"] twoSided l' := by
  have closing : ∀ a ∈ [closeOf "b", closeOf "c", closeOf "c"], Ledger.Closing a := by simp [closeOf_closing]
  obtain ⟨numbers, l', stepped, left, _, flattened⟩ :=
    step_closes (b := { actions := [closeOf "b", closeOf "c", closeOf "c"], book := .ledger twoSided }) rfl
      twoSided_sorted closing
  refine ⟨twoSided_sorted, closing, numbers, l', stepped, left _ 5 rfl, left _ (-3) rfl, flattened.mpr ?_⟩
  intro id held
  have other : (Value.text "c").same id = false := by
    cases id with
    | text name =>
      refine beq_false_of_ne ?_
      rintro rfl
      exact held rfl
    | _ => rfl
  have unnamed : Ledger.closes (closeOf "c") id = false := other
  simp only [List.countP_cons, List.countP_nil, unnamed, Bool.false_eq_true, if_false]
  cases Ledger.closes (closeOf "b") id <;> decide

/-- Two actions that close one position take it to the other side. -/
theorem closing_twice_reverses :
    fiver.Sorted ∧ (∀ a ∈ [closeOf "a", closeOf "a"], Ledger.Closing a) ∧
      ∃ l', outcome step { actions := [closeOf "a", closeOf "a"], book := .ledger fiver } =
          (.ok (some [1, 2]), { actions := [], book := .ledger l' }) ∧
        l'.position (.text "a") = .int (-5) ∧ ¬ Flattened [closeOf "a", closeOf "a"] fiver l' := by
  have given : ∀ c ∈ [Call.entry (entryOf "a" true 5), .step], c.Whole := by simp
  refine ⟨sorted_of_after (rfl : ({ quantity := .int 1 } : BrokerSettings).quantity = .int 1) given rfl,
    by simp [closeOf_closing], _, rfl, rfl, fun flattened => ?_⟩
  exact (flattened.sides (.text "a") 5 (-5) rfl rfl).2 ⟨by decide, by decide⟩

end Broker

end PineEngine
