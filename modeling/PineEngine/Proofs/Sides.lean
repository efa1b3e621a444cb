import PineEngine.Proofs.Accounting

/-! # The sides of positions

An entry closes all positions in the other direction and opens one in its own, so whatever the positions were, after it
they all lie on its side (`Ledger.Sorted.ordersFor_entry`). This is so although both kinds of order are planned from the
old positions: the order of an entry for a name that is held in the other direction still has the sign of the entry, and
the position that it meets is closed by then. Closing takes positions away. So as long as no step finds more than one
action, all positions lie on one side (`Broker.step_oneSided`).
-/

namespace PineEngine

open Computation

namespace Ledger

variable {l l' : Ledger} {a a' : Action} {orders : List Order} {long : Bool}

/-- Every position is long, or every one is short. A position is what is found under a name; what is not a number finds
    nothing. -/
def Lies (l : Ledger) (long : Bool) : Prop :=
  ∀ id, l.Stores id → ∃ q : Int, l.position id = .int q ∧ if long then 0 < q else q < 0

structure Enters (a : Action) (long : Bool) : Prop where
  entry : IsEntry a
  direction : ∃ v, a.lookup "long" = some v ∧ v.isTrue = long

theorem Enters.of_fields (enters : Enters a long)
    (others : ∀ key, key ≠ "qty" → a'.lookup key = a.lookup key) : Enters a' long := by
  obtain ⟨⟨kind, named, entered⟩, v, direction, up⟩ := enters
  exact ⟨⟨kind, (others _ (by decide)).trans named, entered⟩, v, (others _ (by decide)).trans direction, up⟩

@[simp] theorem toward_add (long : Bool) (p q : Int) : toward long (p + q) = toward long p + toward long q := by
  cases long <;> simp [toward]
  omega

@[simp] theorem toward_zero (long : Bool) : toward long 0 = 0 := by
  cases long <;> rfl

theorem Sorted.lies_iff (sorted : l.Sorted) (noneFlat : l.NoneFlat) :
    l.Lies long ↔ ∀ id p, l.position id = .int p → 0 ≤ toward long p := by
  constructor
  · intro lies id p held
    by_cases stored : l.Stores id
    · obtain ⟨q, held', side⟩ := lies id stored
      cases held.symm.trans held'
      cases long <;> simp [toward] at side ⊢ <;> omega
    · rw [position_eq_zero stored] at held
      cases held
      simp
  · intro side id stored
    obtain ⟨p, held⟩ := sorted.position_whole id
    have here := side id p held
    have nonzero : p ≠ 0 := fun zero => (sorted.stores_iff noneFlat id).mp stored (zero ▸ held)
    refine ⟨p, held, ?_⟩
    cases long <;> simp [toward] at here ⊢ <;> omega

theorem toward_total (side : ∀ o ∈ orders, 0 < toward long o.units) (id : Value) :
    0 ≤ toward long (Order.total orders id) := by
  induction orders with
  | nil => simp
  | cons o orders ih =>
    have here := side o (.head _)
    have rest := ih fun o mem => side o (.tail _ mem)
    rw [Order.total_cons, toward_add]
    split
    · omega
    · simpa using rest

variable {id quantity : Value}

theorem Sorted.ordersFor_entry (sorted : l.Sorted) (enters : Enters a long) {w : Int}
    (wanted : a.lookup "qty" = some (.int w)) (h : l.ordersFor a = .ok orders) {p : Int}
    (held : l.position id = .int p) : 0 ≤ toward long (p + Order.total orders id) := by
  obtain ⟨kind, named, entered⟩ := enters.entry
  obtain ⟨v, direction, rfl⟩ := enters.direction
  unfold ordersFor at h
  simp only [Fields.get, named, direction, ok_bind, entered, if_true] at h
  obtain ⟨closing, closes, opening, opens, h⟩ := bind₂_eq_ok h
  cases h
  -- What lies on the other side is made up for.
  have closed : 0 ≤ toward v.isTrue (p + Order.total closing id) := by
    obtain ⟨_, closes', _, total⟩ := sorted.closeSide_eq fun q => Value.holds_ints (if v.isTrue then .lt else .gt) q 0
    cases closes.symm.trans closes'
    rw [total id p held]
    cases up : v.isTrue <;> simp [toward] <;> split <;> omega
  -- What is opened lies on the side of the entry.
  have opened : 0 ≤ toward v.isTrue (Order.total opening id) := by
    obtain ⟨_, direction', side⟩ := sorted.openPosition_toward wanted opens
    rw [Fields.get, direction] at direction'
    cases direction'
    exact toward_total (fun o mem => (side o mem).2) id
  rw [Order.total_append, ← Int.add_assoc, toward_add]
  omega

theorem Sorted.ordersFor_other (sorted : l.Sorted) (other : ¬ IsEntry a) (h : l.ordersFor a = .ok orders)
    {p : Int} (held : l.position id = .int p) : Order.total orders id = 0 ∨ Order.total orders id = -p := by
  obtain ⟨kind, named, h⟩ := bind_eq_ok h
  split at h
  next entered => exact absurd ⟨kind, get_eq_ok named, entered⟩ other
  next =>
    split at h
    next =>
      obtain ⟨name, _, h⟩ := bind_eq_ok h
      obtain ⟨_, closed, _, total⟩ := sorted.closeOne_eq (isKey_of_closeOne h)
      cases closed.symm.trans h
      simp only [total id p held]
      split
      · exact .inr rfl
      · exact .inl rfl
    next =>
      split at h
      next =>
        obtain ⟨_, closed, _, total⟩ := sorted.closeAll_eq
        cases closed.symm.trans h
        exact .inr (total id p held)
      next => cases h

theorem Sorted.ordersFor_entry_ok (sorted : l.Sorted) (enters : Enters a long) {w : Int}
    (wanted : a.lookup "qty" = some (.int w)) (name : a.lookup "id" = some id) (key : id.isKey) :
    ∃ closing, l.closeSide (if long then .lt else .gt) = .ok closing ∧
      l.ordersFor a = .ok (closing ++ l.opening long w id) := by
  obtain ⟨kind, named, entered⟩ := enters.entry
  obtain ⟨v, direction, rfl⟩ := enters.direction
  obtain ⟨closing, closes, _⟩ := sorted.closeSide_eq fun q => Value.holds_ints (if v.isTrue then .lt else .gt) q 0
  refine ⟨closing, closes, ?_⟩
  simp only [ordersFor, Fields.get, named, direction, ok_bind, entered, if_true, closes,
    sorted.openPosition_named wanted direction name key]
  rfl

theorem Sorted.ordersFor_side (sorted : l.Sorted) (noneFlat : l.NoneFlat) (lies : ∃ long, l.Lies long)
    (whole : IsEntry a → ∃ w : Int, a.lookup "qty" = some (.int w)) (h : l.ordersFor a = .ok orders) :
    ∃ long, (∀ id p, l.position id = .int p → 0 ≤ toward long (p + Order.total orders id)) ∧
      ∀ up, Enters a up → long = up := by
  by_cases entry : IsEntry a
  · obtain ⟨w, wanted⟩ := whole entry
    obtain ⟨v, direction⟩ : ∃ v, a.lookup "long" = some v := by
      obtain ⟨kind, named, entered⟩ := entry
      simp only [ordersFor, Fields.get, named, ok_bind, entered, if_true] at h
      obtain ⟨v, got, _⟩ := bind_eq_ok h
      exact ⟨v, get_eq_ok got⟩
    refine ⟨v.isTrue, fun id p held => ?_, fun up enters => ?_⟩
    · exact sorted.ordersFor_entry ⟨entry, v, direction, rfl⟩ wanted h held
    · obtain ⟨v', direction', rfl⟩ := enters.direction
      cases direction.symm.trans direction'
      rfl
  · obtain ⟨long, lies⟩ := lies
    refine ⟨long, fun id p held => ?_, fun up enters => absurd enters.entry entry⟩
    have side := (sorted.lies_iff noneFlat).mp lies id p held
    rcases sorted.ordersFor_other entry h held with none | all
    · simpa [none] using side
    · simp [all]

/-- The quantity that an entry comes to, its own or the one that stands in for none, is whole. -/
def SettlesWhole (quantity : Value) (a : Action) : Prop :=
  ∀ v, a.lookup "qty" = some v →
    (∃ q : Int, v = .int q) ∨ (v = .absent ∨ v.isNaN = .ok true) ∧ ∃ q : Int, quantity = .int q

/-- Whether a quantity stands for none can be told: it can be read as a double. -/
def Readable (v : Value) : Prop :=
  v = .absent ∨ ∃ missing, v.isNaN = .ok missing

theorem isNaN_int {q : Int} {missing : Bool} (told : (Value.int q).isNaN = .ok missing) : missing = false := by
  change (Value.floatOfInt q).map Float.isNaN = .ok missing at told
  unfold Value.floatOfInt at told
  split at told
  next x read =>
    cases told
    exact Decimal.isNaN_floatOfInt read
  next => cases told

theorem withQuantity_int (entry : IsEntry a) {q : Int} (asked : a.lookup "qty" = some (.int q))
    (readable : Readable (.int q)) : withQuantity quantity a = .ok a := by
  obtain ⟨kind, named, entered⟩ := entry
  obtain absent | ⟨missing, told⟩ := readable
  · cases absent
  · cases isNaN_int told
    simp only [withQuantity, Fields.get, named, asked, ok_bind, entered, if_true]
    rw [told]
    rfl

theorem withQuantity_entry {v : Value} (settles : SettlesWhole quantity a) (entry : IsEntry a)
    (asked : a.lookup "qty" = some v) (readable : Readable v) :
    ∃ a', withQuantity quantity a = .ok a' ∧ (∃ w : Int, a'.lookup "qty" = some (.int w)) ∧
      ∀ key, key ≠ "qty" → a'.lookup key = a.lookup key := by
  have set (w : Int) : ∃ w' : Int, (a.set "qty" (.int w)).lookup "qty" = some (.int w') := ⟨w, by simp [lookup_set]⟩
  have others (w : Int) (key : String) (other : key ≠ "qty") : (a.set "qty" (.int w)).lookup key = a.lookup key := by
    simp [lookup_set, other]
  rcases settles v asked with ⟨q, rfl⟩ | none
  · exact ⟨a, withQuantity_int entry asked readable, ⟨q, asked⟩, fun _ _ => rfl⟩
  obtain ⟨kind, named, entered⟩ := entry
  simp only [withQuantity, Fields.get, named, asked, ok_bind, entered, if_true]
  rcases none with ⟨rfl | isNaN, w, rfl⟩
  · exact ⟨_, rfl, set w, others w⟩
  · cases v with
    | absent => exact ⟨_, rfl, set w, others w⟩
    | _ =>
      dsimp only
      rw [isNaN]
      exact ⟨_, rfl, set w, others w⟩

theorem withQuantity_settles (settles : IsEntry a → SettlesWhole quantity a)
    (h : withQuantity quantity a = .ok a') :
    (IsEntry a' → ∃ w : Int, a'.lookup "qty" = some (.int w)) ∧ ∀ key, key ≠ "qty" → a'.lookup key = a.lookup key := by
  by_cases entry : IsEntry a
  · obtain ⟨v, asked, readable⟩ : ∃ v, a.lookup "qty" = some v ∧ Readable v := by
      obtain ⟨kind, named, entered⟩ := entry
      simp only [withQuantity, Fields.get, named, ok_bind, entered, if_true] at h
      cases asked : a.lookup "qty" with
      | none =>
        rw [asked] at h
        cases h
      | some v =>
        refine ⟨v, rfl, ?_⟩
        simp only [asked, ok_bind] at h
        cases v with
        | absent => exact .inl rfl
        | _ =>
          obtain ⟨missing, told, _⟩ := bind_eq_ok h
          exact .inr ⟨missing, told⟩
    obtain ⟨_, given', whole, others⟩ := withQuantity_entry (settles entry) entry asked readable
    cases h.symm.trans given'
    exact ⟨fun _ => whole, others⟩
  · obtain ⟨kind, named, h⟩ := bind_eq_ok h
    rw [if_neg fun entered => entry ⟨kind, get_eq_ok named, entered⟩] at h
    cases h
    exact ⟨fun entered => absurd entered entry, fun _ _ => rfl⟩

theorem plan_one (quantity : Value) (a : Action) : l.plan quantity [a] =
    match withQuantity quantity a with
    | .error e => ([a], .error e)
    | .ok a => ([a], l.ordersFor a) := by
  unfold plan
  cases withQuantity quantity a with
  | error e => rfl
  | ok a =>
    dsimp only
    cases l.ordersFor a with
    | error e => rfl
    | ok orders => simp [plan, Except.map]

end Ledger

namespace Broker

open Ledger

variable {b : Broker} {settings : BrokerSettings} {l : Ledger}

/-- A call whose quantity comes to a whole one if it is an entry. -/
def Call.SettlesWhole (settings : BrokerSettings) : Call → Prop
  | .entry kws => Ledger.SettlesWhole settings.quantity kws
  | _ => True

/-- An action with a name, and with a quantity that can be read, be it none. -/
structure Complete (a : Action) : Prop where
  name : ∃ id, a.lookup "id" = some id ∧ id.isKey
  quantity : ∃ v, a.lookup "qty" = some v ∧ Readable v

def Single : Broker → List Call → Prop
  | _, [] => True
  | b, c :: calls => (c = .step → b.actions.length ≤ 1) ∧ Single (leaves c.perform b) calls

/-- A broker of whole quantities with all positions on one side. -/
structure OneSided (b : Broker) (settings : BrokerSettings) (l : Ledger) : Prop where
  book : b.book = .ledger l
  settled : b.settings = settings
  actions : ∀ a ∈ b.actions, IsEntry a → Ledger.SettlesWhole settings.quantity a
  sorted : l.Sorted
  noneFlat : l.NoneFlat
  lies : ∃ long, l.Lies long

namespace OneSided

section

variable (oneSided : b.OneSided settings l)

include oneSided

theorem add {a : Action} (settles : IsEntry a → Ledger.SettlesWhole settings.quantity a) :
    OneSided { b with actions := b.actions ++ [a] } settings l := by
  refine ⟨oneSided.book, oneSided.settled, fun a' mem => ?_, oneSided.sorted, oneSided.noneFlat, oneSided.lies⟩
  rcases List.mem_append.mp mem with old | new
  · exact oneSided.actions a' old
  · cases List.mem_singleton.mp new
    exact settles

theorem commit {actions : List Action} {orders : List Order}
    (planned : l.plan b.settings.quantity b.actions = (actions, .ok orders)) (moves : ∀ o ∈ orders, o.Moves)
    {long : Bool} (side : ∀ id p, l.position id = .int p → 0 ≤ toward long (p + Order.total orders id)) :
    ∃ numbers l', outcome step b = (.ok (some numbers), { b with actions := [], book := .ledger l' }) ∧
      OneSided { b with actions := [], book := .ledger l' } settings l' ∧ l'.Lies long := by
  obtain ⟨l', committed, sorted, changed, noneFlat⟩ := oneSided.sorted.commit_eq fun o mem => (moves o mem).toWhole
  have noneFlat := noneFlat oneSided.noneFlat fun o mem => (moves o mem).moves
  have lies : l'.Lies long := by
    apply (sorted.lies_iff noneFlat).mpr
    intro id p held
    obtain ⟨q, before⟩ := oneSided.sorted.position_whole id
    cases held.symm.trans (changed id q before)
    exact side id q before
  exact ⟨_, l', step_eq_ok oneSided.book planned committed,
    ⟨rfl, oneSided.settled, nofun, sorted, noneFlat, long, lies⟩, lies⟩

theorem step (single : b.actions.length ≤ 1) :
    ∃ l', (leaves Broker.step b).OneSided settings l' ∧ ∀ a long numbers, b.actions = [a] → Enters a long →
      (outcome Broker.step b).1 = .ok numbers → l'.Lies long := by
  have quantity : b.settings.quantity = settings.quantity := by rw [oneSided.settled]
  have fails {a : Action} {e : Fault} (planned : l.plan b.settings.quantity b.actions = ([a], .error e))
      (settles : IsEntry a → Ledger.SettlesWhole settings.quantity a) :
      ∃ l', (leaves Broker.step b).OneSided settings l' ∧ ∀ a long numbers, b.actions = [a] → Enters a long →
        (outcome Broker.step b).1 = .ok numbers → l'.Lies long := by
    rw [leaves, step_eq_error oneSided.book planned]
    refine ⟨l, ⟨oneSided.book, oneSided.settled, ?_, oneSided.sorted, oneSided.noneFlat, oneSided.lies⟩,
      fun _ _ _ _ _ stepped => by cases stepped⟩
    simpa using settles
  obtain h | ⟨a, h⟩ : b.actions = [] ∨ ∃ a, b.actions = [a] := by
    rcases h : b.actions with _ | ⟨a, _ | ⟨c, rest⟩⟩
    · exact .inl rfl
    · exact .inr ⟨a, rfl⟩
    · simp [h] at single
  · have planned : l.plan b.settings.quantity b.actions = ([], .ok []) := by
      rw [h]
      rfl
    obtain ⟨long, lies⟩ := oneSided.lies
    have side := (oneSided.sorted.lies_iff oneSided.noneFlat).mp lies
    obtain ⟨numbers, l', stepped, after, _⟩ := oneSided.commit planned (by simp) (by simpa using side)
    rw [leaves, stepped, h]
    exact ⟨l', after, fun _ _ _ only => by cases only⟩
  · have settles := oneSided.actions a (by simp [h])
    have planned := (congrArg (l.plan b.settings.quantity) h).trans (plan_one b.settings.quantity a)
    cases settled : withQuantity b.settings.quantity a with
    | error e =>
      rw [settled] at planned
      exact fails planned settles
    | ok a' =>
      obtain ⟨whole, others⟩ := withQuantity_settles settles (quantity ▸ settled)
      rw [settled] at planned
      dsimp only at planned
      cases made : l.ordersFor a' with
      | error e =>
        rw [made] at planned
        refine fails planned fun entry v asked => .inl ?_
        obtain ⟨w, asked'⟩ := whole entry
        cases asked.symm.trans asked'
        exact ⟨w, rfl⟩
      | ok orders =>
        rw [made] at planned
        have moves := oneSided.sorted.ordersFor_moves oneSided.noneFlat whole made
        obtain ⟨long, side, settlesSide⟩ :=
          oneSided.sorted.ordersFor_side oneSided.noneFlat oneSided.lies whole made
        obtain ⟨numbers, l', stepped, after, lies⟩ := oneSided.commit planned moves side
        rw [leaves, stepped]
        refine ⟨l', after, fun a₁ up _ only enters _ => ?_⟩
        cases h.symm.trans only
        exact settlesSide up (enters.of_fields others) ▸ lies

theorem step_ok {a : Action} (h : b.actions = [a]) {long : Bool}
    (enters : Enters a long) (complete : Complete a) : ∃ numbers, (outcome Broker.step b).1 = .ok numbers := by
  have settles := oneSided.actions a (by simp [h])
  rw [← oneSided.settled] at settles
  obtain ⟨v, asked, readable⟩ := complete.quantity
  obtain ⟨id, name, key⟩ := complete.name
  obtain ⟨a', settled, ⟨w, wanted⟩, others⟩ := withQuantity_entry (settles enters.entry) enters.entry asked readable
  have enters' := enters.of_fields others
  obtain ⟨_, _, made⟩ := oneSided.sorted.ordersFor_entry_ok enters' wanted ((others _ (by decide)).trans name) key
  have planned := (congrArg (l.plan b.settings.quantity) h).trans (plan_one b.settings.quantity a)
  rw [settled] at planned
  dsimp only at planned
  rw [made] at planned
  have moves := oneSided.sorted.ordersFor_moves oneSided.noneFlat (fun _ => ⟨w, wanted⟩) made
  obtain ⟨_, side, _⟩ := oneSided.sorted.ordersFor_side oneSided.noneFlat oneSided.lies (fun _ => ⟨w, wanted⟩) made
  obtain ⟨numbers, _, stepped, _⟩ := oneSided.commit planned moves side
  exact ⟨some numbers, congrArg Prod.fst stepped⟩

theorem call {c : Call} (settles : c.SettlesWhole settings)
    (single : c = .step → b.actions.length ≤ 1) : ∃ l', (leaves c.perform b).OneSided settings l' := by
  cases c with
  | entry kws =>
    rcases leaves_entry kws b with same | added
    · exact ⟨l, same.symm ▸ oneSided⟩
    · refine ⟨l, added ▸ oneSided.add fun _ v found => settles v ?_⟩
      rwa [lookup_set, if_neg (by decide)] at found
  | close | closeAll => exact ⟨l, oneSided.add fun entry => absurd entry (not_isEntry (by decide))⟩
  | step =>
    have left : leaves (Call.perform .step) b = leaves Broker.step b := leaves_bind_pure ..
    rw [left]
    obtain ⟨l', after, _⟩ := oneSided.step (single rfl)
    exact ⟨l', after⟩

theorem after {calls : List Call} (settles : ∀ c ∈ calls, c.SettlesWhole settings)
    (single : Single b calls) : ∃ l', (b.after calls).OneSided settings l' := by
  induction calls generalizing b l with
  | nil => exact ⟨l, oneSided⟩
  | cons c calls ih =>
    obtain ⟨l₁, first⟩ := oneSided.call (settles c (.head _)) single.1
    exact ih first (fun c mem => settles c (.tail _ mem)) single.2

end

theorem fresh (settings : BrokerSettings) : OneSided { settings, book := .ledger {} } settings {} := by
  refine ⟨rfl, rfl, nofun, ⟨nofun, .nil, nofun, nofun, nofun, nofun⟩, nofun, true, ?_⟩
  rintro id ⟨e, mem, _⟩
  cases mem

end OneSided

theorem Single.append {calls rest : List Call} (single : Single b (calls ++ rest)) :
    Single b calls ∧ Single (b.after calls) rest := by
  induction calls generalizing b with
  | nil => exact ⟨trivial, single⟩
  | cons c calls ih => exact ⟨⟨single.1, (ih single.2).1⟩, (ih single.2).2⟩

/-- Whatever is asked of a new broker in whole quantities, as long as no step finds more than one action: after a step
    all positions lie on one side. If the action was an entry that could be carried out, it is the side of the entry,
    and an entry with a name and a quantity can be carried out. -/
theorem step_oneSided (settings : BrokerSettings) (calls : List Call) (settles : ∀ c ∈ calls, c.SettlesWhole settings)
    (single : Single { settings, book := .ledger {} } (calls ++ [.step])) :
    let b := Broker.after { settings, book := .ledger {} } calls
    ∃ l', (leaves step b).book = .ledger l' ∧ (∃ long, l'.Lies long) ∧
      ∀ a long, b.actions = [a] → Enters a long →
        (∀ numbers, (outcome step b).1 = .ok numbers → l'.Lies long) ∧
        (Complete a → ∃ numbers, (outcome step b).1 = .ok numbers) := by
  obtain ⟨before, last⟩ := single.append
  obtain ⟨l, oneSided⟩ := (OneSided.fresh settings).after settles before
  obtain ⟨l', stepped, entered⟩ := oneSided.step (last.1 rfl)
  refine ⟨l', stepped.book, stepped.lies, fun a long given enters => ⟨?_, ?_⟩⟩
  · exact fun numbers done => entered a long numbers given enters done
  · exact oneSided.step_ok given enters

/-- Two long positions, then a short entry under the name of one of them. -/
def reversal : List Call :=
  [.entry (entryOf "a" true 5), .step, .entry (entryOf "b" true 7), .step, .entry (entryOf "a" false 3)]

theorem step_oneSided_reversal :
    (∀ c ∈ reversal, c.SettlesWhole {}) ∧ Single { book := .ledger {} } (reversal ++ [.step]) ∧
      ∃ l', (leaves step (Broker.after { book := .ledger {} } reversal)).book = .ledger l' ∧
        l'.Stores (.text "a") ∧ l'.Lies false := by
  have asks (id : String) (long : Bool) (q : Int) (quantity : Value) :
      Ledger.SettlesWhole quantity (entryOf id long q) := by
    intro v asked
    cases asked
    exact .inl ⟨q, rfl⟩
  have settles : ∀ c ∈ reversal, c.SettlesWhole {} := by
    simp [reversal, asks, Call.SettlesWhole]
  have single : Single { book := .ledger {} } (reversal ++ [.step]) :=
    ⟨nofun, fun _ => Nat.le_refl 1, nofun, fun _ => Nat.le_refl 1, nofun, fun _ => Nat.le_refl 1, trivial⟩
  obtain ⟨l', book, _, entered⟩ := step_oneSided {} reversal settles single
  have enters : Enters ((entryOf "a" false 3).set "action" (.text "entry")) false := ⟨⟨_, rfl, rfl⟩, _, rfl, rfl⟩
  refine ⟨settles, single, l', book, ?_, (entered _ false rfl enters).1 _ rfl⟩
  cases book
  exact ⟨_, List.mem_singleton_self _, rfl⟩

end Broker

end PineEngine
