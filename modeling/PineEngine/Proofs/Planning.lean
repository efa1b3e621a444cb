import Mathlib.Data.List.Nodup
import PineEngine.Proofs.Positions

/-! # The orders that actions ask for

All orders of a step are computed from the positions before the step, one action after the other. Closing makes up
for what a position was before the step; an entry asks for a quantity other than zero, or for nothing. In a ledger
of whole quantities the orders are of whole quantities too, and none of them is zero.
-/

namespace PineEngine

open Computation List Value

structure Order.Moves (o : Order) : Prop extends o.Whole where
  moves : o.units ≠ 0

namespace Ledger

variable {l l' : Ledger} {id : Value} {orders : List Order} {on : Int → Bool}

/-- Orders of whole quantities, none of them zero in a ledger without flat positions, by which each position changes
    as given. -/
abbrev Changes (l : Ledger) (orders : List Order) (change : Value → Int → Int) : Prop :=
  (∀ o ∈ orders, o.Whole ∧ (l.NoneFlat → o.units ≠ 0)) ∧
    ∀ other p, l.position other = .int p → Order.total orders other = change other p

theorem Changes.cons {α : Type} {first rest : List Order} {on : α → Value → Bool} {a : α} {as : List α}
    (here : l.Changes first fun other p => if on a other then -p else 0)
    (later : l.Changes rest fun other p => -(as.countP (on · other) * p)) :
    l.Changes (first ++ rest) fun other p => -((a :: as).countP (on · other) * p) := by
  refine ⟨fun o mem => (mem_append.mp mem).elim (here.1 o) (later.1 o), fun other p position => ?_⟩
  rw [Order.total_append, here.2 other p position, later.2 other p position]
  simp only [countP_cons]
  by_cases closed : on a other
  · simp only [closed, if_true, Int.natCast_add, Int.natCast_one, Int.add_mul]
    omega
  · simp [closed]

theorem Sorted.closeOne_eq (sorted : l.Sorted) (key : id.isKey) : ∃ orders, l.closeOne id = .ok orders ∧
    l.Changes orders fun other p => if id.same other then -p else 0 := by
  unfold closeOne
  by_cases stored : l.Stores id
  · obtain ⟨e, mem, same⟩ := stored
    have held : l.holder? id = .ok (some e.2) := by
      rw [holder_eq key, sorted.find_eq mem same]
      rfl
    have negated : (l.order e.2).qty.negate = .ok (.int (-(l.order e.2).units)) := by
      rw [sorted.whole e mem]
      rfl
    rw [held]
    refine ⟨[⟨id, .int (-(l.order e.2).units)⟩], ?_, ?_, fun other p position => ?_⟩
    · show (do pure [⟨id, ← (l.order e.2).qty.negate⟩] : Except Fault (List Order)) = _
      rw [negated]
      rfl
    · intro o only
      cases mem_singleton.mp only
      exact ⟨.of_int key _, fun noneFlat zero => noneFlat e mem (Int.neg_eq_zero.mp zero)⟩
    · rw [Order.total_cons, Order.total_nil, Int.add_zero]
      by_cases here : id.same other
      · rw [sorted.position_eq mem ((same_congr (sorted.keys e mem) key same other).trans here)] at position
        cases position
        simp [here, Order.units]
      · simp [here]
  · have held : l.holder? id = .ok none := by
      rw [holder_eq key, find_eq_none stored]
      rfl
    rw [held]
    refine ⟨[], rfl, nofun, fun other p position => ?_⟩
    by_cases here : id.same other
    · have flat : ¬ l.Stores other := by
        rintro ⟨e, mem, same⟩
        have keyE := sorted.keys e mem
        have keyOther := isKey_of_same keyE same
        exact stored ⟨e, mem, same_trans keyE keyOther key same (same_symm key keyOther here)⟩
      rw [position_eq_zero flat] at position
      cases position
      simp
    · simp [here]

theorem isKey_of_closeOne (h : l.closeOne id = .ok orders) : id.isKey := by
  unfold closeOne holder? at h
  split at h
  · assumption
  · cases h

theorem Sorted.closeEach_eq (sorted : l.Sorted) (ids : List Value) (keys : ∀ id ∈ ids, id.isKey) :
    ∃ orders, l.closeEach ids = .ok orders ∧ l.Changes orders fun other p => -(ids.countP (·.same other) * p) := by
  induction ids with
  | nil => exact ⟨[], rfl, nofun, fun other p _ => by simp⟩
  | cons id ids ih =>
    obtain ⟨first, closed, here⟩ := sorted.closeOne_eq (keys id (.head _))
    obtain ⟨rest, each, later⟩ := ih fun id mem => keys id (.tail _ mem)
    refine ⟨first ++ rest, ?_, here.cons later⟩
    unfold closeEach at each ⊢
    obtain ⟨parts, mapped, joined⟩ := bind_eq_ok each
    cases joined
    rw [mapM_cons, closed, mapped]
    rfl

theorem countP_eq_one {α : Type} {p : α → Bool} {as : List α} (nodup : as.Nodup) {a : α} (mem : a ∈ as) (here : p a)
    (only : ∀ b ∈ as, p b → b = a) : as.countP p = 1 := by
  classical
  rw [← count_eq_one_of_mem nodup mem]
  refine countP_congr fun b member => ?_
  rw [beq_iff_eq]
  exact ⟨only b member, (· ▸ here)⟩

theorem Sorted.closeWhere_eq (sorted : l.Sorted) (on : Int → Bool) :
    ∃ orders, l.closeEach ((l.positions.filter fun e => on (l.order e.2).units).map (·.1)) = .ok orders ∧
      l.Changes orders fun _ p => if on p then -p else 0 := by
  obtain ⟨orders, closed, whole, total⟩ :=
    sorted.closeEach_eq ((l.positions.filter fun e => on (l.order e.2).units).map (·.1)) fun id mem => by
      obtain ⟨e, stored, rfl⟩ := mem_map.mp mem
      exact sorted.keys e (mem_filter.mp stored).1
  refine ⟨orders, closed, whole, fun other p position => ?_⟩
  rw [total other p position]
  simp only [countP_map, countP_filter]
  by_cases stored : l.Stores other
  · obtain ⟨e, mem, same⟩ := stored
    have only {d : Value × Nat} (amongD : d ∈ l.positions) (sameD : d.1.same other) : d = e :=
      sorted.eq_of_same amongD mem sameD same
    rw [sorted.position_eq mem same] at position
    cases position
    cases here : on (l.order e.2).units with
    | true =>
      rw [countP_eq_one sorted.nodup mem (by simp [same, here]) fun d amongD both => only amongD (by simp_all)]
      simp
    | false =>
      rw [countP_eq_zero.mpr fun d amongD both => ?_]
      · simp
      · simp only [Function.comp, Bool.and_eq_true] at both
        cases only amongD both.1
        simp [here] at both
  · rw [position_eq_zero stored] at position
    cases position
    simp

theorem Sorted.closeAll_eq (sorted : l.Sorted) :
    ∃ orders, l.closeEach (l.positions.map (·.1)) = .ok orders ∧ l.Changes orders fun _ p => -p := by
  have all : l.positions.filter (fun _ => true) = l.positions := filter_eq_self.mpr fun _ _ => rfl
  simpa [all] using sorted.closeWhere_eq fun _ => true

theorem filterM_map_eq {α β : Type} {f : α → β} {p : β → Except Fault Bool} {on : α → Bool} {as : List α}
    (tells : ∀ a ∈ as, p (f a) = .ok (on a)) : (as.map f).filterM p = .ok ((as.filter on).map f) := by
  have loop (acc : List β) : filterAuxM p (as.map f) acc = .ok (((as.filter on).map f).reverse ++ acc) := by
    induction as generalizing acc with
    | nil => rfl
    | cons a as ih =>
      rw [map_cons, filterAuxM, tells a (.head _)]
      change filterAuxM p (as.map f) _ = _
      rw [ih fun a mem => tells a (.tail _ mem)]
      cases here : on a <;> simp [here]
  rw [filterM, loop []]
  simp

variable {op : CompareOp} {v : Value} {a : Action} {w quantity : Int} {actions : List Action}

theorem Sorted.oneSide_eq (sorted : l.Sorted)
    (tells : ∀ q : Int, holds op (.int q) (.int 0) = .ok (on q)) : l.oneSide op =
      .ok ((l.positions.filter fun e => on (l.order e.2).units).map fun e => (e.1, (l.order e.2).qty)) := by
  refine filterM_map_eq fun e stored => ?_
  show holds op (l.order e.2).qty (.int 0) = _
  rw [sorted.whole e stored]
  exact tells _

def toward (long : Bool) (q : Int) : Int :=
  if long then q else -q

theorem toward_toward (long : Bool) (q : Int) : toward long (toward long q) = q := by
  cases long <;> simp [toward]

def held (l : Ledger) (long : Bool) : Int :=
  (l.positions.map fun e => max 0 (toward long (l.order e.2).units)).sum

theorem get_eq_ok {fields : Fields} {key : String} (h : fields.get key = .ok v) : fields.lookup key = some v := by
  unfold Fields.get at h
  split at h
  next found =>
    cases h
    exact found
  next => cases h

theorem Sorted.sum_oneSide (sorted : l.Sorted) (long : Bool) :
    (l.oneSide (if long then .gt else .lt) >>= fun es => Value.sum (es.map (·.2))) =
      .ok (.int (toward long (l.held long))) := by
  have sum (es : List (Value × Nat)) (stored : es ⊆ l.positions) (start : Int) :
      ((es.filter fun e => 0 < toward long (l.order e.2).units).map fun e => (l.order e.2).qty).foldlM
        (arith .add) (.int start) =
        .ok (.int (start + toward long (es.map fun e => max 0 (toward long (l.order e.2).units)).sum)) := by
    induction es generalizing start with
    | nil => cases long <;> simp [toward] <;> rfl
    | cons e es ih =>
      obtain ⟨here, stored⟩ := cons_subset.mp stored
      rw [filter_cons]
      split
      next side =>
        have add : arith .add (.int start) (l.order e.2).qty = .ok (.int (start + (l.order e.2).units)) := by
          rw [sorted.whole e here]
          rfl
        rw [map_cons, foldlM_cons, add, ok_bind, ih stored]
        cases long <;> simp [toward] at side ⊢ <;> omega
      next side =>
        rw [ih stored]
        cases long <;> simp [toward] at side ⊢ <;> omega
  have tells (q : Int) : holds (if long then .gt else .lt) (.int q) (.int 0) = .ok (decide (0 < toward long q)) := by
    rw [holds_ints]
    cases long <;> simp [toward]
  rw [sorted.oneSide_eq tells, ok_bind, map_map]
  simpa [held, Value.sum, Function.comp_def] using sum l.positions (Subset.refl _) 0

def lacking (long : Bool) (missing : Int) (id : Value) : List Order :=
  if toward long missing ≤ 0 then [] else [⟨id, .int missing⟩]

section

variable (sorted : l.Sorted) (wanted : a.lookup "qty" = some (.int w))

include sorted wanted

theorem Sorted.openPosition_eq (direction : a.lookup "long" = some v) : l.openPosition a =
      if w ≤ l.held v.isTrue then .ok [] else a.get "id" >>= fun id =>
        if id.isKey then
          .ok (lacking v.isTrue (toward v.isTrue (w - l.held v.isTrue) - Order.units ⟨id, l.position id⟩) id)
        else .error .operands := by
  have asked : (if v.isTrue then pure (.int w) else (int w).negate : Except Fault Value) =
      .ok (.int (toward v.isTrue w)) := by
    cases v.isTrue <;> rfl
  have reached (q : Int) : holds (if v.isTrue then .le else .ge) (.int q) (.int 0) =
      .ok (decide (toward v.isTrue q ≤ 0)) := by
    rw [holds_ints]
    cases v.isTrue <;> simp [toward]
  have less (m : Int) {q : Value} {n : Int} (whole : q = .int n) : arith .sub (.int m) q = .ok (.int (m - n)) :=
    whole ▸ rfl
  have missing : toward v.isTrue w - toward v.isTrue (l.held v.isTrue) = toward v.isTrue (w - l.held v.isTrue) := by
    cases v.isTrue <;> simp [toward]
    omega
  unfold openPosition
  simp only [Fields.get, direction, wanted, ok_bind]
  rw [← bind_assoc, sorted.sum_oneSide, ok_bind, ← apply_ite (fun x : Except Fault Value => x >>= _), asked, ok_bind,
    less _ rfl, ok_bind, missing, reached, ok_bind, toward_toward]
  simp only [decide_eq_true_eq, show w - l.held v.isTrue ≤ 0 ↔ w ≤ l.held v.isTrue by omega]
  by_cases enough : w ≤ l.held v.isTrue
  · rw [if_pos enough, if_pos enough]
    rfl
  · rw [if_neg enough, if_neg enough]
    congr 1
    funext id
    by_cases key : id.isKey
    · rw [holder_eq key, ok_bind, if_pos key]
      by_cases stored : l.Stores id
      · obtain ⟨e, mem, same⟩ := stored
        rw [sorted.find_eq mem same, sorted.position_eq mem same]
        dsimp only [Option.map_some]
        rw [less _ (sorted.whole e mem), ok_bind, reached, ok_bind]
        simp only [lacking, Order.units_int, decide_eq_true_eq]
        exact (apply_ite Except.ok ..).symm
      · have pos : ¬ toward v.isTrue (toward v.isTrue (w - l.held v.isTrue)) ≤ 0 := by
          rw [toward_toward]
          omega
        rw [find_eq_none stored, position_eq_zero stored]
        simp [lacking, pos]
        rfl
    · rw [holder?, if_neg key, if_neg key]
      rfl

/-- The order of an entry for a name: what the side lacks, less the position of the name. -/
def opening (l : Ledger) (long : Bool) (wanted : Int) (id : Value) : List Order :=
  if wanted ≤ l.held long then []
  else lacking long (toward long (wanted - l.held long) - Order.units ⟨id, l.position id⟩) id

theorem Sorted.openPosition_named (direction : a.lookup "long" = some v) (name : a.lookup "id" = some id) (key : id.isKey) :
    l.openPosition a = .ok (l.opening v.isTrue w id) := by
  rw [sorted.openPosition_eq wanted direction]
  simp only [Fields.get, name, ok_bind, key, if_true, ← apply_ite Except.ok]
  rfl

theorem Sorted.openPosition_toward (h : l.openPosition a = .ok orders) :
    ∃ long, a.get "long" = .ok long ∧ ∀ o ∈ orders, o.Whole ∧ 0 < toward long.isTrue o.units := by
  obtain ⟨v, direction, _⟩ := bind_eq_ok h
  refine ⟨v, direction, ?_⟩
  rw [sorted.openPosition_eq wanted (get_eq_ok direction)] at h
  split at h
  · cases h
    nofun
  · obtain ⟨id, _, h⟩ := bind_eq_ok h
    split at h
    next key =>
      cases h
      unfold lacking
      split
      next => nofun
      next missing =>
        intro o only
        cases mem_singleton.mp only
        exact ⟨.of_int key _, Int.not_le.mp missing⟩
    next => cases h

theorem Sorted.openPosition_moves (h : l.openPosition a = .ok orders) : ∀ o ∈ orders, o.Moves := by
  obtain ⟨long, _, side⟩ := sorted.openPosition_toward wanted h
  intro o mem
  refine ⟨(side o mem).1, fun zero => ?_⟩
  have pos := (side o mem).2
  rw [zero] at pos
  cases up : long.isTrue <;> simp [toward, up] at pos

end

/-- A quantity that an entry may ask for: a whole number, or none, so that the broker's own quantity stands in. -/
def WholeQuantity (v : Value) : Prop :=
  (∃ q : Int, v = .int q) ∨ v = .absent ∨ v.isNaN = .ok true

def IsEntry (a : Action) : Prop :=
  ∃ kind, a.lookup "action" = some kind ∧ kind.same (.text "entry")

/-- An action that asks for a whole quantity if it is an entry. -/
def WholeAction (a : Action) : Prop :=
  IsEntry a → ∀ v, a.lookup "qty" = some v → WholeQuantity v

theorem lookup_set (fields : Fields) (key other : String) (v : Value) :
    (fields.set key v).lookup other = if other == key then some v else fields.lookup other := by
  induction fields with
  | nil =>
    rw [Fields.set, lookup_cons]
    cases other == key <;> rfl
  | cons field rest ih =>
    obtain ⟨k, w⟩ := field
    unfold Fields.set
    by_cases here : k = key
    · subst here
      rw [if_pos (beq_self_eq_true k), lookup_cons, lookup_cons]
      cases other == k <;> rfl
    · rw [if_neg (by simpa using here), lookup_cons, lookup_cons, ih]
      cases same : other == k with
      | true =>
        rw [eq_of_beq same]
        simp [here]
      | false => rfl

theorem withQuantity_whole {a' : Action} (whole : WholeAction a) (h : withQuantity (.int quantity) a = .ok a')
    (entry : IsEntry a') : ∃ w : Int, a'.lookup "qty" = some (.int w) := by
  obtain ⟨kind, named, h⟩ := bind_eq_ok h
  by_cases entered : kind.same (.text "entry")
  · rw [if_pos entered] at h
    obtain ⟨v, asked, h⟩ := bind_eq_ok h
    have quantities := whole ⟨kind, get_eq_ok named, entered⟩ v (get_eq_ok asked)
    have set : (a.set "qty" (.int quantity)).lookup "qty" = some (.int quantity) := by simp [lookup_set]
    rcases quantities with ⟨q, rfl⟩ | rfl | isNaN
    · obtain ⟨missing, _, h⟩ := bind_eq_ok h
      cases missing with
      | true =>
        cases h
        exact ⟨quantity, set⟩
      | false =>
        cases h
        exact ⟨q, get_eq_ok asked⟩
    · cases h
      exact ⟨quantity, set⟩
    · split at h
      · cases isNaN
      · rw [isNaN] at h
        cases h
        exact ⟨quantity, set⟩
  · rw [if_neg entered] at h
    cases h
    obtain ⟨kind', named', entered'⟩ := entry
    cases (get_eq_ok named).symm.trans named'
    exact absurd entered' entered

theorem Sorted.closeSide_eq (sorted : l.Sorted)
    (tells : ∀ q : Int, holds op (.int q) (.int 0) = .ok (on q)) :
    ∃ orders, l.closeSide op = .ok orders ∧ l.Changes orders fun _ p => if on p then -p else 0 := by
  obtain ⟨orders, closed, made⟩ := sorted.closeWhere_eq on
  refine ⟨orders, ?_, made⟩
  rw [closeSide, sorted.oneSide_eq tells, ← closed]
  simp [bind, Except.bind, Function.comp_def]

theorem Sorted.closeSide_moves (sorted : l.Sorted) (noneFlat : l.NoneFlat) (h : l.closeSide op = .ok orders) :
    ∀ o ∈ orders, o.Moves := by
  obtain ⟨closing, closed, whole, _⟩ := sorted.closeSide_eq fun q => holds_ints op q 0
  cases closed.symm.trans h
  exact fun o mem => ⟨(whole o mem).1, (whole o mem).2 noneFlat⟩

theorem Sorted.ordersFor_moves (sorted : l.Sorted) (noneFlat : l.NoneFlat)
    (whole : IsEntry a → ∃ w : Int, a.lookup "qty" = some (.int w)) (h : l.ordersFor a = .ok orders) :
    ∀ o ∈ orders, o.Moves := by
  obtain ⟨kind, named, h⟩ := bind_eq_ok h
  split at h
  next entered =>
    obtain ⟨w, wanted⟩ := whole ⟨kind, get_eq_ok named, entered⟩
    obtain ⟨long, _, closing, closes, h⟩ := bind₂_eq_ok h
    obtain ⟨opening, opens, h⟩ := bind_eq_ok h
    cases h
    intro o mem
    rcases mem_append.mp mem with first | second
    · exact sorted.closeSide_moves noneFlat closes o first
    · exact sorted.openPosition_moves wanted opens o second
  next =>
    split at h
    next =>
      obtain ⟨id, _, h⟩ := bind_eq_ok h
      obtain ⟨closing, closed, whole, _⟩ := sorted.closeOne_eq (isKey_of_closeOne h)
      cases closed.symm.trans h
      exact fun o mem => ⟨(whole o mem).1, (whole o mem).2 noneFlat⟩
    next =>
      split at h
      next =>
        obtain ⟨closing, closed, whole, _⟩ := sorted.closeAll_eq
        cases closed.symm.trans h
        exact fun o mem => ⟨(whole o mem).1, (whole o mem).2 noneFlat⟩
      next => cases h

theorem Sorted.plan_moves (sorted : l.Sorted) (noneFlat : l.NoneFlat) (whole : ∀ a ∈ actions, WholeAction a)
    (h : (l.plan (.int quantity) actions).2 = .ok orders) : ∀ o ∈ orders, o.Moves := by
  induction actions generalizing orders with
  | nil =>
    cases h
    nofun
  | cons a rest ih =>
    unfold plan at h
    split at h
    next => cases h
    next a' settled =>
      split at h
      next => cases h
      next first planned =>
        obtain ⟨others, later, rfl⟩ := map_eq_ok h
        intro o mem
        rcases mem_append.mp mem with here | there
        · exact sorted.ordersFor_moves noneFlat (withQuantity_whole (whole a (.head _)) settled) planned o here
        · exact ih (fun a mem => whole a (.tail _ mem)) later o there

theorem plan_whole (whole : ∀ a ∈ actions, WholeAction a) :
    ∀ a ∈ (l.plan (.int quantity) actions).1, WholeAction a := by
  induction actions with
  | nil => nofun
  | cons a rest ih =>
    have later : ∀ a ∈ rest, WholeAction a := fun a mem => whole a (.tail _ mem)
    unfold plan
    split
    next => exact whole
    next a' settled =>
      have settled : WholeAction a' := fun entry v found => by
        obtain ⟨w, asked⟩ := withQuantity_whole (whole a (.head _)) settled entry
        cases asked.symm.trans found
        exact .inl ⟨w, rfl⟩
      split
      next => exact forall_mem_cons.mpr ⟨settled, later⟩
      next => exact forall_mem_cons.mpr ⟨settled, ih later⟩

inductive Closing (a : Action) : Prop where
  | one (id : Value) (kind : a.lookup "action" = some (.text "close")) (named : a.lookup "id" = some id) (key : id.isKey)
  | all (kind : a.lookup "action" = some (.text "close_all"))

def closes (a : Action) (id : Value) : Bool :=
  match a.lookup "action" with
  | some (.text kind) => if kind = "close" then (a.lookup "id").any (·.same id) else kind = "close_all"
  | _ => false

theorem Closing.withQuantity_eq (closing : Closing a) (quantity : Value) : withQuantity quantity a = .ok a := by
  rcases closing with ⟨_, kind, _, _⟩ | ⟨kind⟩ <;> simp [withQuantity, Fields.get, kind] <;> rfl

theorem Sorted.ordersFor_closing (sorted : l.Sorted) (closing : Closing a) :
    ∃ orders, l.ordersFor a = .ok orders ∧ l.Changes orders fun other p => if closes a other then -p else 0 := by
  rcases closing with ⟨id, kind, named, key⟩ | ⟨kind⟩
  · obtain ⟨orders, closed, whole, total⟩ := sorted.closeOne_eq key
    refine ⟨orders, ?_, whole, ?_⟩
    · rw [← closed]
      simp [ordersFor, Fields.get, kind, named, Value.same, bind, Except.bind]
    · intro other p held
      rw [total other p held]
      simp [closes, kind, named]
  · obtain ⟨orders, closed, whole, total⟩ := sorted.closeAll_eq
    refine ⟨orders, ?_, whole, ?_⟩
    · rw [← closed]
      simp [ordersFor, Fields.get, kind, Value.same, bind, Except.bind]
    · intro other p held
      rw [total other p held]
      simp [closes, kind]

theorem Sorted.plan_closing (sorted : l.Sorted) (quantity : Value) (closing : ∀ a ∈ actions, Closing a) :
    ∃ orders, l.plan quantity actions = (actions, .ok orders) ∧
      l.Changes orders fun other p => -(actions.countP (closes · other) * p) := by
  induction actions with
  | nil => exact ⟨[], rfl, nofun, by simp⟩
  | cons a rest ih =>
    obtain ⟨first, made, here⟩ := sorted.ordersFor_closing (closing a (.head _))
    obtain ⟨others, planned, later⟩ := ih fun a mem => closing a (.tail _ mem)
    refine ⟨first ++ others, ?_, here.cons later⟩
    simp only [plan, (closing a (.head _)).withQuantity_eq, made, planned]
    rfl

end Ledger

end PineEngine
