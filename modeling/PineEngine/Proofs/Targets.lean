import Mathlib.Algebra.BigOperators.Group.List.Basic
import PineEngine.Proofs.Sides

/-! # What an entry comes to

Orders change the sum of all positions by the sum of their quantities (`Ledger.Sorted.commit_net`). An entry takes away
all that lies on the other side, so after it the sum is what its side held before, and its own order. That order is for
what the side lacks, less the position of its name. A name that is not held gets what is missing, and the side comes to
the quantity that was asked for. But the position of a name that is held is taken off a second time: on the side of the
entry it counts as held already, and on the other side it is closed (`Broker.step_reaches`).
-/

namespace PineEngine

open Computation List

namespace Ledger

variable {l l' : Ledger} {n : Nat} {orders : List Order} {long : Bool} {id : Value}

def net (l : Ledger) : Int :=
  ((l.positions.map (·.2)).map fun n => (l.order n).units).sum

def Named (l : Ledger) : Prop :=
  ∀ e ∈ l.positions, e.1.same e.1

theorem Sorted.numbers_nodup (sorted : l.Sorted) : (l.positions.map (·.2)).Nodup :=
  Nodup.map_on (fun d amongD e amongE => sorted.numbers d amongD e amongE) sorted.nodup

theorem Applied.net_eq (applied : Applied l n l') (sorted : l.Sorted) : l'.net = l.net + (l.order n).units := by
  have nodup := sorted.numbers_nodup
  -- The order that holds a position is taken out of the sum, and what becomes of it is put in.
  have split {e : Value × Nat} (mem : e ∈ l.positions) (f : Nat → Int) :=
    sum_map_erase f (mem_map_of_mem (f := (·.2)) mem)
  cases applied with
  | opened =>
    show (((l.positions ++ [((l.order n).id, n)]).map (·.2)).map fun n => (l.order n).units).sum = _
    simp [net]
  | closed e mem _ zero =>
    have left : (l.positions.filter (·.2 != e.2)).map (·.2) = (l.positions.map (·.2)).erase e.2 := by
      rw [nodup.erase_eq_filter, filter_map]
      rfl
    show (((l.positions.filter (·.2 != e.2)).map (·.2)).map fun n => (l.order n).units).sum = _
    have whole := split mem fun n => (l.order n).units
    rw [left, net]
    omega
  | changed e mem =>
    let l' := { l with
      orders := l.orders.setIfInBounds e.2 ⟨(l.order e.2).id, .int ((l.order e.2).units + (l.order n).units)⟩ }
    have others : ((l.positions.map (·.2)).erase e.2).map (fun n => (l'.order n).units) =
        ((l.positions.map (·.2)).erase e.2).map fun n => (l.order n).units :=
      map_congr_left fun k other => congrArg Order.units (order_set_ne _ ((nodup.mem_erase_iff.mp other).1))
    have own : (l'.order e.2).units = (l.order e.2).units + (l.order n).units :=
      congrArg Order.units (order_set_eq _ (sorted.present e mem))
    have before := split mem fun n => (l.order n).units
    have after := split mem fun n => (l'.order n).units
    show ((l.positions.map (·.2)).map fun n => (l'.order n).units).sum = _
    rw [others] at after
    rw [net]
    omega

theorem Applied.named (applied : Applied l n l') (named : l.Named) (own : (l.order n).id.same (l.order n).id) :
    l'.Named := by
  intro e mem
  cases applied with
  | opened =>
    rcases mem_append.mp mem with old | new
    · exact named e old
    · cases mem_singleton.mp new
      exact own
  | closed => exact named e (mem_filter.mp mem).1
  | changed => exact named e mem

section Named

variable (sorted : l.Sorted) (named : l.Named)

include sorted named

theorem AppliedAll.net_eq {ns : List Nat} (applied : AppliedAll l ns l') (ready : l.Ready ns)
    (own : ∀ o ∈ ns.map l.order, o.id.same o.id) :
    l'.net = l.net + ((ns.map l.order).map Order.units).sum ∧ l'.Named := by
  induction applied with
  | nil => simpa using named
  | @cons l _ _ n ns first rest ih =>
    have mem := mem_cons_self (a := n) (l := ns)
    obtain ⟨ready', same⟩ := first.rest_eq ready
    obtain ⟨here, own⟩ := forall_mem_cons.mp own
    rw [← same] at own
    obtain ⟨sum, named⟩ := ih (first.sorted sorted (ready.whole n mem) (ready.free n mem) (ready.present n mem))
      (first.named named here) ready' own
    rw [sum, same, first.net_eq sorted]
    simp [named, Int.add_assoc]

theorem Sorted.commit_net (whole : ∀ o ∈ orders, o.Whole ∧ o.id.same o.id)
    {numbers : List Nat} (committed : outcome (commit orders) l = (.ok numbers, l')) :
    l'.net = l.net + (orders.map Order.units).sum ∧ l'.Named := by
  obtain ⟨l₁, applied, committed'⟩ := commit_cases sorted fun o mem => (whole o mem).1
  cases committed.symm.trans committed'
  have net : (l.entered orders).net = l.net :=
    congrArg List.sum (map_congr_left fun n mem => by
      obtain ⟨e, stored, rfl⟩ := mem_map.mp mem
      exact congrArg Order.units (order_entered_old (sorted.present e stored)))
  have after := applied.net_eq (sorted.entered orders) named (sorted.ready_entered fun o mem => (whole o mem).1)
  rw [map_order_entered, net] at after
  exact after fun o mem => (whole o mem).2

theorem Sorted.closeEach_named {es : List (Value × Nat)}
    (stored : es ⊆ l.positions) :
    l.closeEach (es.map (·.1)) = .ok (es.map fun e => ⟨e.1, .int (-(l.order e.2).units)⟩) := by
  induction es with
  | nil => rfl
  | cons e es ih =>
    obtain ⟨here, stored⟩ := cons_subset.mp stored
    have own : l.closeOne e.1 = .ok [⟨e.1, .int (-(l.order e.2).units)⟩] := by
      rw [closeOne, holder_eq (sorted.keys e here), sorted.find_eq here (named e here)]
      show ((l.order e.2).qty.negate >>= fun qty => pure [⟨e.1, qty⟩] : Except Fault (List Order)) = _
      rw [sorted.whole e here]
      rfl
    have rest := ih stored
    unfold closeEach at rest ⊢
    obtain ⟨parts, mapped, joined⟩ := bind_eq_ok rest
    rw [map_cons, mapM_cons, own, mapped]
    exact congrArg (Except.ok ∘ (_ :: ·)) (Except.ok.inj joined)

theorem Sorted.closeSide_net (long : Bool) {closing : List Order}
    (closes : l.closeSide (if long then .lt else .gt) = .ok closing) :
    (∀ o ∈ closing, o.id.same o.id) ∧ l.net + (closing.map Order.units).sum = toward long (l.held long) := by
  have tells (q : Int) : Value.holds (if long then .lt else .gt) (.int q) (.int 0) = .ok (decide (toward long q < 0)) := by
    rw [Value.holds_ints]
    cases long <;> simp [toward]
  rw [closeSide, sorted.oneSide_eq tells, ok_bind, map_map] at closes
  cases closes.symm.trans (sorted.closeEach_named named (filter_subset_self _))
  constructor
  · intro o mem
    obtain ⟨e, stored, rfl⟩ := mem_map.mp mem
    exact named e (mem_filter.mp stored).1
  · rw [net, held, map_map, map_map]
    generalize l.positions = es
    induction es with
    | nil => cases long <;> rfl
    | cons e es ih =>
      rw [filter_cons]
      split
      next side => cases long <;> simp [toward] at side ih ⊢ <;> omega
      next side => cases long <;> simp [toward] at side ih ⊢ <;> omega

end Named

theorem held_eq (side : ∀ o ∈ l.holdings, 0 < toward long o.units) : l.held long = toward long l.net := by
  unfold held net
  unfold holdings at side
  generalize l.positions = es at side ⊢
  induction es with
  | nil => cases long <;> rfl
  | cons e es ih =>
    obtain ⟨here, side⟩ := forall_mem_cons.mp side
    have rest := ih side
    cases long <;> simp [toward] at here rest ⊢ <;> omega

theorem id_of_opening {q : Int} {o : Order} (mem : o ∈ l.opening long q id) : o.id = id := by
  unfold opening lacking at mem
  split at mem
  · cases mem
  · split at mem
    · cases mem
    · cases mem_singleton.mp mem
      rfl

theorem toward_opening {q p : Int} (position : l.position id = .int p) :
    l.held long + toward long ((l.opening long q id).map Order.units).sum =
      if q ≤ l.held long ∨ q - l.held long ≤ toward long p then l.held long else q - toward long p := by
  unfold opening lacking
  rw [position]
  cases long <;> simp [toward] <;> split <;> split <;> simp <;> omega

end Ledger

namespace Broker

open Ledger

variable {b : Broker} {l : Ledger}

/-- An entry for a whole quantity that can be read as a double, under a name that is found again. After its step all
    positions lie on its side. Their sum is what it was if that is enough, or if the position of the name makes up for
    the rest; else it is the quantity less the position of the name. So it comes to the quantity that was asked for, or
    stays at more, exactly if there was enough or the name was not held. -/
theorem step_reaches (book : b.book = .ledger l) (sorted : l.Sorted) (noneFlat : l.NoneFlat) (named : l.Named)
    {a : Action} (given : b.actions = [a]) {long : Bool} (enters : Enters a long) {id : Value}
    (name : a.lookup "id" = some id) (key : id.isKey) (own : id.same id) {q : Int}
    (asked : a.lookup "qty" = some (.int q)) (readable : Readable (.int q)) {p : Int} (position : l.position id = .int p) :
    ∃ numbers l', outcome step b = (.ok (some numbers), { b with actions := [], book := .ledger l' }) ∧
      (∀ o ∈ l'.holdings, 0 < toward long o.units) ∧
      l'.held long = (if q ≤ l.held long ∨ q - l.held long ≤ toward long p then l.held long else q - toward long p) ∧
      (l'.held long = max q (l.held long) ↔ q ≤ l.held long ∨ ¬ l.Stores id) := by
  obtain ⟨closing, closes, made⟩ := sorted.ordersFor_entry_ok enters asked name key
  have planned : l.plan b.settings.quantity b.actions = ([a], .ok (closing ++ l.opening long q id)) := by
    rw [given, plan_one, withQuantity_int enters.entry asked readable]
    exact congrArg (Prod.mk [a]) made
  have moves := sorted.ordersFor_moves noneFlat (fun _ => ⟨q, asked⟩) made
  obtain ⟨l', committed, sorted', changed, noneFlat'⟩ := sorted.commit_eq fun o among => (moves o among).toWhole
  have noneFlat' := noneFlat' noneFlat fun o among => (moves o among).moves
  obtain ⟨found, closed⟩ := sorted.closeSide_net named long closes
  have finds : ∀ o ∈ closing ++ l.opening long q id, o.Whole ∧ o.id.same o.id := by
    intro o among
    refine ⟨(moves o among).toWhole, ?_⟩
    rcases List.mem_append.mp among with old | new
    · exact found o old
    · exact (id_of_opening new).symm ▸ own
  obtain ⟨net, named'⟩ := sorted.commit_net named finds committed
  have side : ∀ o ∈ l'.holdings, 0 < toward long o.units := by
    intro o among
    obtain ⟨e, stored, rfl⟩ := List.mem_map.mp among
    obtain ⟨p', before⟩ := sorted.position_whole e.1
    have after := (sorted'.position_eq stored (named' e stored)).symm.trans (changed e.1 p' before)
    have right := sorted.ordersFor_entry enters asked made before
    have nonzero := noneFlat' e stored
    rw [← Value.int.inj after] at right
    cases long <;> simp [toward] at right ⊢ <;> omega
  have total : l'.held long = (if q ≤ l.held long ∨ q - l.held long ≤ toward long p then l.held long
      else q - toward long p) := by
    rw [held_eq side, net, map_append, sum_append, ← Int.add_assoc, closed, toward_add, toward_toward]
    exact toward_opening position
  refine ⟨_, l', step_eq_ok book planned committed, side, total, ?_⟩
  have flat : ¬ l.Stores id ↔ p = 0 := by
    rw [sorted.stores_iff noneFlat, position]
    simp
  rw [total, flat]
  cases long <;> simp [toward] <;> split <;> omega

def marketEntry (id : String) (long : Bool) (qty : Int) : Action :=
  (entryOf id long qty).set "action" (.text "entry")

/-- A short entry, and a long position under another name. -/
theorem step_reaches_fiver :
    fiver.Sorted ∧ fiver.NoneFlat ∧ fiver.Named ∧
      ∃ numbers l', outcome step { actions := [marketEntry "b" false 3], book := .ledger fiver } =
          (.ok (some numbers), { actions := [], book := .ledger l' }) ∧
        (∀ o ∈ l'.holdings, 0 < toward false o.units) ∧ l'.held false = 3 := by
  have sorted : fiver.Sorted := by
    have given : ∀ c ∈ [Call.entry (entryOf "a" true 5), .step], c.Whole := by simp
    exact sorted_of_after (rfl : ({ quantity := .int 1 } : BrokerSettings).quantity = .int 1) given rfl
  have noneFlat : fiver.NoneFlat := by simp [NoneFlat, fiver, order, Order.units]
  have named : fiver.Named := by simp [Named, fiver, Value.same]
  obtain ⟨numbers, l', stepped, side, total, _⟩ :=
    step_reaches (b := { actions := [marketEntry "b" false 3], book := .ledger fiver }) (a := marketEntry "b" false 3) rfl sorted
      noneFlat named rfl ⟨⟨_, rfl, rfl⟩, _, rfl, rfl⟩ rfl rfl rfl rfl (.inr ⟨_, rfl⟩) (p := 0) rfl
  exact ⟨sorted, noneFlat, named, numbers, l', stepped, side, total⟩

/-- A position of five is not brought to eight under its own name. -/
theorem entry_short_of_target :
    fiver.held true = 5 ∧ ∃ l', (leaves step { actions := [marketEntry "a" true 8], book := .ledger fiver }).book = .ledger l' ∧
      l'.held true = 5 :=
  ⟨rfl, _, rfl, rfl⟩

end Broker

end PineEngine
