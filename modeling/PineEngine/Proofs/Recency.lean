import Mathlib.Data.List.Dedup
import Mathlib.Data.List.DropRight
import PineEngine.Proofs.Computation
import PineEngine.Service

/-! # Machines in order of use

A bounded cache would hold the machines that were installed or used last (`Service.mostRecent`), and make room by
giving up the one that was used longest ago. The service keeps its machines in this order, but never gives one up. So
its cache is the bounded one exactly as long as no more machines were installed than it may hold, and from then on
every request to install a machine fails, although the machine is kept (`Service.cache_recent`).
-/

namespace PineEngine

open Computation List

namespace Cache

variable {α : Type} {c : Cache α} {name name' : String} {a : α}

theorem names_put : (c.put name a).names = c.names.filter (· != name) ++ [name] := by
  simp [put, erase, names, filter_map, Function.comp_def]

theorem names_put_new (new : name ∉ c.names) : (c.put name a).names = c.names ++ [name] := by
  rw [names_put, filter_eq_self.mpr]
  rintro other mem
  exact bne_iff_ne.mpr fun same => new (same ▸ mem)

theorem put_put {b : α} : (c.put name a).put name b = c.put name b := by
  simp [put, erase, filter_filter]

theorem size_eq_length_names (c : Cache α) : c.size = c.names.length := by
  rw [size, names, length_map]

theorem mem_names_of_get? (found : c.get? name = some a) : name ∈ c.names := by
  obtain ⟨before, after, split, _⟩ := lookup_eq_some_iff.mp found
  rw [names, split]
  simp

theorem not_mem_names_of_get? (missing : c.get? name = none) : name ∉ c.names := by
  intro mem
  obtain ⟨⟨key, b⟩, entry, rfl⟩ := mem_map.mp mem
  have differs := lookup_eq_none_iff.mp missing (key, b) entry
  simp at differs

theorem get?_put_of_ne (other : name' ≠ name) : (c.put name a).get? name' = c.get? name' := by
  have kept (entries : List (String × α)) : (entries.filter (·.1 != name)).lookup name' = entries.lookup name' := by
    induction entries with
    | nil => rfl
    | cons entry entries ih =>
      by_cases here : entry.1 = name
      · rw [filter_cons_of_neg (by simp [here]), ih, lookup_cons, here, beq_eq_false_iff_ne.mpr other]
      · rw [filter_cons_of_pos (by simp [here]), lookup_cons, lookup_cons, ih]
  rw [get?, put, erase, lookup_append, kept, get?]
  simp [lookup_cons, beq_eq_false_iff_ne.mpr other]

end Cache

namespace Request

def made (r : Request) : Except Fault Machine := do
  let code ← r.item "code"
  let inputs ← r.item "inputs"
  let market ← r.item "market"
  let p ← compile code
  let market ← Service.marketOf market
  let (prepared, m) := outcome (Machine.prepare p inputs.toValue) (Machine.new .plain market)
  let _ ← prepared
  pure m

def installed? (r : Request) : Option Machine :=
  if r.path = "/install-vm" then r.made.toOption else none

def installs (r : Request) : Bool :=
  r.installed?.isSome

def fields? : String → Option (List String)
  | "/touch-vm" => some ["vmid"]
  | "/boot-vm" => some ["vmid", "ohlcv"]
  | "/step-vm" => some ["vmid", "broker", "ohlcv2"]
  | _ => none

def asked? (r : Request) : Option String := do
  let fields ← fields? r.path
  if fields.all fun key => (r.item key).isOk then
    match r.item "vmid" with
    | .ok (.str name) => some name
    | _ => none
  else none

end Request

namespace Service

variable {r : Request} {s : Service} {name : String}

inductive Handled (r : Request) (s : Service) : Service → Prop where
  | install {m : Machine} (made : r.installed? = some m) :
    Handled r s { s with machines := s.machines.put r.ident m }
  | use {name : String} {m m' : Machine} (asked : r.asked? = some name) (found : s.machines.get? name = some m) :
    Handled r s { s with machines := s.machines.put name m' }
  | other (new : r.installed? = none) (asked : ∀ name, r.asked? = some name → s.machines.get? name = none) :
    Handled r s s

variable {α : Type} {m : Machine} {room : Nat}

theorem lift_reads {e : Except Fault α} : Obeys Eq (liftM e : ServiceM α) := by
  cases e <;> exact fun _ => rfl

theorem outcome_register (ident : String) (m : Machine) :
    outcome (register ident m) s =
      (if s.limit < (s.machines.put ident m).size then .error .member else .ok (),
        { s with machines := s.machines.put ident m }) := by
  rw [register, bind_ok (outcome_modify _ s), get_bind]
  split <;> rfl

theorem lift_bind {β : Type} (e : Except Fault α) (f : α → Except Fault β) :
    (liftM (e >>= f) : ServiceM β) = liftM e >>= fun a => liftM (f a) := by
  cases e <;> rfl

theorem lift_pure (a : α) : (liftM (pure a : Except Fault α) : ServiceM α) = pure a := rfl

theorem install_eq (r : Request) : install r = (do
    let m ← r.made
    register r.ident m
    return .body [("vm", .str r.ident), ("markets", .arr []), ("server_clock", r.clock)]) := by
  simp only [install, Request.made, lift_bind, lift_pure, bind_assoc, pure_bind]
  rfl

/-- An answer to a request that found a machine or not: without one there is nothing to do, and else the machine is put
    back, changed or not. -/
def PutsBack (f : Option (String × Machine) → ServiceM Reply) : Prop :=
  f none = pure .missing ∧ ∀ name m (s : Service), ∃ m',
    leaves (f (some (name, m))) { s with machines := s.machines.put name m } =
      { s with machines := s.machines.put name m' }

theorem onMachine_puts (name : String) (m : Machine) (op : MachineM α) {f : α → ServiceM Reply}
    (reads : ∀ a, Obeys Eq (f a)) (s : Service) : ∃ m',
      leaves (onMachine name m op >>= f) { s with machines := s.machines.put name m } =
        { s with machines := s.machines.put name m' } := by
  have done : outcome (onMachine name m op) { s with machines := s.machines.put name m } =
      ((outcome op m).1, { s with machines := s.machines.put name (outcome op m).2 }) := by
    rw [onMachine]
    rcases h : outcome op m with ⟨e | a, m'⟩ <;> have h : (op.run).run m = _ := h <;> simp only [h] <;>
      rw [bind_ok (outcome_modify _ _), Cache.put_put] <;> rfl
  refine ⟨(outcome op m).2, ?_⟩
  rw [leaves, outcome_bind, done]
  cases (outcome op m).1 with
  | error e => rfl
  | ok a => exact (reads a _).symm

theorem use_handled {f : Option (String × Machine) → ServiceM Reply} {v : Json} (back : PutsBack f)
    (new : r.installed? = none) (asked : ∀ name, r.asked? = some name ↔ v = .str name) :
    Handled r s (leaves (use v >>= f) s) := by
  obtain ⟨missing, back⟩ := back
  have idle (same : outcome (use v) s = (.ok none, s)) : leaves (use v >>= f) s = s := by
    rw [leaves, bind_ok same, missing]
    rfl
  have unnamed (other : ∀ name, v ≠ .str name) : Handled r s s :=
    .other new fun name h => (other name ((asked name).mp h)).elim
  cases v with
  | str name =>
    cases found : s.machines.get? name with
    | none =>
      rw [idle (by rw [use, get_bind, found]; rfl)]
      exact .other new fun name' h => Json.str.inj ((asked name').mp h) ▸ found
    | some m =>
      have used : outcome (use (.str name)) s =
          (.ok (some (name, m)), { s with machines := s.machines.put name m }) := by
        rw [use, get_bind, found]
        rfl
      obtain ⟨m', left⟩ := back name m s
      rw [leaves, bind_ok used, ← leaves, left]
      exact .use ((asked name).mpr rfl) found
  | arr | obj => exact unnamed fun _ => Json.noConfusion
  | _ =>
    rw [idle rfl]
    exact unnamed fun _ => Json.noConfusion

section Asking

variable {fields : List String} (path : Request.fields? r.path = some fields)

include path

theorem asked?_of_items {v : Json} (items : ∀ key ∈ fields, ∃ j, r.item key = .ok j) (here : r.item "vmid" = .ok v)
    (name : String) : r.asked? = some name ↔ v = .str name := by
  have all : fields.all fun key => (r.item key).isOk := by
    rw [all_eq_true]
    intro key mem
    obtain ⟨j, found⟩ := items key mem
    rw [found]
    rfl
  rw [Request.asked?, path, Option.bind_eq_bind, Option.bind_some, if_pos all, here]
  cases v <;> simp

theorem installed?_of_asking : r.installed? = none := by
  refine if_neg fun same => ?_
  rw [same] at path
  cases path

theorem item_handled {key : String} {f : Json → ServiceM Reply} (mem : key ∈ fields)
    (next : ∀ v, r.item key = .ok v → Handled r s (leaves (f v) s)) :
    Handled r s (leaves (liftM (r.item key) >>= f) s) := by
  cases item : r.item key with
  | ok v => exact next v item
  | error e =>
    have lacks : ¬ (fields.all fun key => (r.item key).isOk) := by
      rw [all_eq_true]
      intro all
      have found := all key mem
      rw [item] at found
      cases found
    refine .other (installed?_of_asking path) fun name h => ?_
    rw [Request.asked?, path, Option.bind_eq_bind, Option.bind_some, if_neg lacks] at h
    cases h

end Asking

theorem touch_handled (path : r.path = "/touch-vm") : Handled r s (leaves (touch r) s) := by
  have fields : Request.fields? r.path = some ["vmid"] := by rw [path]; rfl
  refine item_handled fields (by simp) fun v vmid => ?_
  exact use_handled ⟨rfl, fun _ m _ => ⟨m, rfl⟩⟩ (installed?_of_asking fields)
    (asked?_of_items fields (by simp [vmid]) vmid)

theorem boot_handled (path : r.path = "/boot-vm") : Handled r s (leaves (boot r) s) := by
  have fields : Request.fields? r.path = some ["vmid", "ohlcv"] := by rw [path]; rfl
  refine item_handled fields (by simp) fun v vmid => item_handled fields (by simp) fun candles ohlcv => ?_
  exact use_handled ⟨rfl, fun name m s => onMachine_puts name m _ (fun _ => .pure _) s⟩
    (installed?_of_asking fields) (asked?_of_items fields (by simp [vmid, ohlcv]) vmid)

theorem step_handled (path : r.path = "/step-vm") : Handled r s (leaves (step r) s) := by
  have fields : Request.fields? r.path = some ["vmid", "broker", "ohlcv2"] := by rw [path]; rfl
  refine item_handled fields (by simp) fun v vmid => item_handled fields (by simp) fun update told =>
    item_handled fields (by simp) fun candle ohlcv2 => ?_
  exact use_handled ⟨rfl, fun name m s => onMachine_puts name m _ (fun _ => .bind lift_reads fun _ => .pure _) s⟩
    (installed?_of_asking fields) (asked?_of_items fields (by simp [vmid, told, ohlcv2]) vmid)

theorem exchangeSupport_reads (r : Request) : Obeys Eq (exchangeSupport r) :=
  .bind lift_reads fun _ => .bind lift_reads fun exchange => .bind .get fun _ => by
    split
    · exact .bind lift_reads fun _ => .pure _
    · refine .bind lift_reads fun _ => .bind lift_reads fun found => ?_
      split
      · exact .pure _
      · refine .bind lift_reads fun market => ?_
        split
        · exact .bind lift_reads fun _ => .pure _
        · exact .bind lift_reads fun _ => .bind lift_reads fun _ => .bind lift_reads fun _ =>
            .bind lift_reads fun _ => .pure _

theorem scanInput_reads (r : Request) : Obeys Eq (scanInput r) :=
  .bind lift_reads fun _ => .bind lift_reads fun _ => .bind lift_reads fun _ => .bind lift_reads fun _ =>
    .pure _

theorem handle_of_route {failure : Nat} {op : Request → ServiceM Reply} (route : route? r.path = some (failure, op)) :
    (handle r s).2 = leaves (op r) s := by
  rw [handle, route]
  dsimp only [leaves, outcome]
  split <;> simp [*]

theorem handle_of_no_route (route : route? r.path = none) : (handle r s).2 = s := by
  rw [handle, route]

theorem installed?_eq_some : r.installed? = some m ↔ r.path = "/install-vm" ∧ r.made = .ok m := by
  unfold Request.installed?
  split
  next path => cases r.made <;> simp [path, Except.toOption]
  next path => simp [path]

theorem outcome_install (made : r.made = .ok m) :
    outcome (install r) s = (if s.limit < (s.machines.put r.ident m).size then .error .member
      else .ok (.body [("vm", .str r.ident), ("markets", .arr []), ("server_clock", r.clock)]),
      { s with machines := s.machines.put r.ident m }) := by
  have h : outcome (liftM r.made : ServiceM Machine) s = (.ok m, s) := by rw [made]; rfl
  rw [install_eq, bind_ok h, outcome_bind, outcome_register]
  by_cases full : s.limit < (s.machines.put r.ident m).size <;> simp [full]

theorem handle_handled (r : Request) (s : Service) : Handled r s (handle r s).2 := by
  have aside (path : r.path ≠ "/install-vm") (unasked : Request.fields? r.path = none) : Handled r s s := by
    refine .other (if_neg path) fun name h => ?_
    rw [Request.asked?, unasked] at h
    cases h
  cases route : route? r.path with
  | none =>
    rw [handle_of_no_route route]
    unfold route? at route
    split at route <;> cases route
    next _ _ install touch boot step =>
      refine aside install ?_
      unfold Request.fields?
      split <;> trivial
  | some found =>
    rw [handle_of_route route]
    unfold route? at route
    split at route <;> cases route
    next path =>
      have same : s = leaves (exchangeSupport r) s := exchangeSupport_reads r s
      rw [← same]
      exact aside (by rw [path]; decide) (by rw [path]; rfl)
    next path =>
      have same : s = leaves (scanInput r) s := scanInput_reads r s
      rw [← same]
      exact aside (by rw [path]; decide) (by rw [path]; rfl)
    next path =>
      cases made : r.made with
      | error e =>
        have failed : outcome (install r) s = (.error e, s) := by
          rw [install_eq, made]
          rfl
        rw [leaves, failed]
        refine .other ?_ fun name h => ?_
        · rw [Request.installed?, if_pos path, made]
          rfl
        · rw [Request.asked?, path] at h
          cases h
      | ok m =>
        rw [leaves, outcome_install made]
        exact .install (installed?_eq_some.mpr ⟨path, made⟩)
    next path => exact touch_handled path
    next path => exact boot_handled path
    next path => exact step_handled path

def after (s : Service) (rs : List Request) : Service :=
  rs.foldl (fun s r => (handle r s).2) s

/-- The names that were noted last, as many as there is room for, each where it was noted last. -/
def mostRecent (room : Nat) (past : List String) : List String :=
  past.dedup.rtake room

/-- Notes the machine that a request installs, or uses. One that there was no room to keep cannot be used. -/
def note (room : Nat) (past : List String) (r : Request) : List String :=
  if r.installs then past ++ [r.ident]
  else match r.asked? with
    | some name => if name ∈ mostRecent room past then past ++ [name] else past
    | none => past

/-- The machines that requests install or use, one after the other, if there is room for so many. -/
def uses (room : Nat) (rs : List Request) : List String :=
  rs.foldl (note room) []

def installed (rs : List Request) : List String :=
  (rs.filter Request.installs).map Request.ident

theorem dedup_concat (past : List String) (name : String) :
    (past ++ [name]).dedup = past.dedup.filter (· != name) ++ [name] := by
  induction past with
  | nil => rfl
  | cons first past ih =>
    by_cases again : first ∈ past
    · rw [cons_append, dedup_cons_of_mem (by simp [again]), dedup_cons_of_mem again, ih]
    · rw [dedup_cons_of_notMem again]
      by_cases same : first = name
      · rw [cons_append, dedup_cons_of_mem (by simp [same]), ih]
        simp [same]
      · rw [cons_append, dedup_cons_of_notMem (by simp [again, same]), ih]
        simp [same]

theorem mostRecent_eq_dedup {past : List String} (fits : past.dedup.length ≤ room) :
    mostRecent room past = past.dedup := by
  rw [mostRecent, rtake, Nat.sub_eq_zero_of_le fits, drop_zero]

/-- The cache holds the machines that were installed, in the order in which they were used last. -/
structure Ordered (room : Nat) (rs : List Request) (names : List String) : Prop where
  order : names = (uses room rs).dedup
  members : names.Perm (installed rs)

theorem Ordered.recent {rs : List Request} {names : List String} (ordered : Ordered room rs names)
    (fits : (installed rs).length ≤ room) : names = mostRecent room (uses room rs) := by
  rw [mostRecent_eq_dedup, ordered.order]
  rw [← ordered.order, ordered.members.length_eq]
  exact fits

section Notes

variable {room : Nat} {rs : List Request}

theorem uses_concat : uses room (rs ++ [r]) = note room (uses room rs) r := by
  rw [uses, foldl_concat, uses]

theorem after_concat : s.after (rs ++ [r]) = (handle r (s.after rs)).2 := by
  rw [after, foldl_concat, after]

theorem installed_concat_of_installs (installs : r.installs) : installed (rs ++ [r]) = installed rs ++ [r.ident] := by
  simp [installed, filter_append, installs]

theorem installed_concat_of_not (other : r.installs = false) : installed (rs ++ [r]) = installed rs := by
  simp [installed, filter_append, other]

theorem installs_of_asked (asked : r.asked? = some name) : r.installs = false := by
  obtain ⟨fields, path, _⟩ := Option.bind_eq_some_iff.mp asked
  rw [Request.installs, installed?_of_asking path]
  rfl

end Notes

theorem after_ordered (fresh : s.machines.entries = []) (rs : List Request) (distinct : (installed rs).Nodup)
    (fits : (installed rs).length ≤ room) : Ordered room rs (s.after rs).machines.names := by
  induction rs using reverseRecOn with
  | nil => exact ⟨by rw [after, foldl_nil, Cache.names, fresh]; rfl, by simp [after, Cache.names, fresh, installed]⟩
  | append_singleton rs r ih =>
    have shorter : (installed rs).Sublist (installed (rs ++ [r])) :=
      ((sublist_append_left rs [r]).filter _).map _
    have before := ih (distinct.sublist shorter) (Nat.le_trans shorter.length_le fits)
    have recent := before.recent (Nat.le_trans shorter.length_le fits)
    have single : (s.after rs).machines.names.Nodup := before.order ▸ nodup_dedup _
    rw [after_concat]
    generalize s.after rs = t at before recent single
    have handled := handle_handled r t
    generalize (handle r t).2 = t' at handled
    cases handled with
    | @install m made =>
      have installs : r.installs := by rw [Request.installs, made]; rfl
      rw [installed_concat_of_installs installs] at distinct
      have new : r.ident ∉ t.machines.names := fun mem =>
        (nodup_append.mp distinct).2.2 _ (before.members.mem_iff.mp mem) _ (mem_singleton.mpr rfl) rfl
      refine ⟨?_, ?_⟩
      · rw [Cache.names_put, uses_concat, note, if_pos installs, dedup_concat, before.order]
      · rw [Cache.names_put_new new, installed_concat_of_installs installs]
        exact before.members.append_right _
    | @use name m m' asked found =>
      have other := installs_of_asked asked
      have here := Cache.mem_names_of_get? found
      refine ⟨?_, ?_⟩
      · rw [Cache.names_put, uses_concat, note, other, if_neg Bool.false_ne_true, asked]
        dsimp only
        rw [if_pos (recent ▸ here), dedup_concat, before.order]
      · rw [Cache.names_put, installed_concat_of_not other]
        refine Perm.trans ?_ before.members
        have moved := perm_cons_erase here
        rw [single.erase_eq_filter] at moved
        exact (perm_append_singleton name _).trans moved.symm
    | other new asked =>
      have other : r.installs = false := by rw [Request.installs, new]; rfl
      refine ⟨?_, by rw [installed_concat_of_not other]; exact before.members⟩
      rw [uses_concat, note, other, if_neg Bool.false_ne_true]
      split
      next name h =>
        rw [if_neg (recent ▸ Cache.not_mem_names_of_get? (asked name h))]
        exact before.order
      next => exact before.order

theorem after_limit (s : Service) (rs : List Request) : (s.after rs).limit = s.limit := by
  induction rs using reverseRecOn with
  | nil => rfl
  | append_singleton rs r ih =>
    rw [after_concat, ← ih]
    generalize s.after rs = t
    have handled := handle_handled r t
    generalize (handle r t).2 = t' at handled
    cases handled <;> rfl

theorem handle_get?_of_ne (new : r.installs → r.ident ≠ name) (asked : r.asked? ≠ some name) :
    (handle r s).2.machines.get? name = s.machines.get? name := by
  have handled := handle_handled r s
  generalize (handle r s).2 = t at handled
  cases handled with
  | install made =>
    have installs : r.installs := by rw [Request.installs, made]; rfl
    exact Cache.get?_put_of_ne (new installs).symm
  | @use name' m m' h found =>
    exact Cache.get?_put_of_ne fun same => asked (same ▸ h)
  | other => rfl

theorem handle_install (made : r.installed? = some m) :
    (handle r s).1 = ⟨200, if (s.machines.put r.ident m).size ≤ s.limit
      then .body [("vm", .str r.ident), ("markets", .arr []), ("server_clock", r.clock)] else .fault .member⟩ := by
  obtain ⟨path, made⟩ := installed?_eq_some.mp made
  have answered : ((install r).run).run s = _ := outcome_install made
  have route : route? r.path = some (200, install) := by
    rw [path]
    rfl
  rw [handle, route]
  dsimp only
  rw [answered]
  by_cases full : s.limit < (s.machines.put r.ident m).size
  · simp [full]
  · simp [full, Nat.not_lt.mp full]

section Fresh

variable {rs : List Request} (fresh : s.machines.entries = []) (distinct : (installed rs).Nodup)

include fresh distinct

theorem after_recent_iff (room : Nat) :
    (s.after rs).machines.names = mostRecent room (uses room rs) ↔ (installed rs).length ≤ room := by
  refine ⟨fun same => ?_, fun fits => (after_ordered fresh rs distinct fits).recent fits⟩
  have few : (mostRecent room (uses room rs)).length ≤ room := by
    rw [mostRecent, rtake, length_drop]
    omega
  rwa [← same, (after_ordered fresh rs distinct (Nat.le_refl _)).members.length_eq] at few

theorem handle_install_new (installs : r.installs) (new : r.ident ∉ installed rs) : (handle r (s.after rs)).1 =
    ⟨200, if (installed rs).length < s.limit
      then .body [("vm", .str r.ident), ("markets", .arr []), ("server_clock", r.clock)] else .fault .member⟩ := by
  have ordered := after_ordered fresh rs distinct (Nat.le_refl _)
  obtain ⟨m, made⟩ := Option.isSome_iff_exists.mp installs
  have absent : r.ident ∉ (s.after rs).machines.names := fun mem => new (ordered.members.mem_iff.mp mem)
  have size : ((s.after rs).machines.put r.ident m).size = (installed rs).length + 1 := by
    rw [Cache.size_eq_length_names, Cache.names_put_new absent, length_append, ordered.members.length_eq,
      length_singleton]
  rw [handle_install made, size, after_limit]
  rfl

end Fresh

/-- Requests are handled, one after the other, by a service that starts without machines, and no two machines are
    installed under one name. At every time the cache is that of the machines that were used last, in the order of their
    use, with room for a given number, just if no more were installed. A request to install another machine is answered
    just if fewer were installed than there is room for. Requests leave machines that they do not name alone. -/
theorem cache_recent (fresh : s.machines.entries = []) (rs : List Request) (distinct : (installed rs).Nodup) :
    (∀ room, (s.after rs).machines.names = mostRecent room (uses room rs) ↔ (installed rs).length ≤ room) ∧
    (∀ r : Request, r.installs → r.ident ∉ installed rs → (handle r (s.after rs)).1 =
      ⟨200, if (installed rs).length < s.limit
        then .body [("vm", .str r.ident), ("markets", .arr []), ("server_clock", r.clock)] else .fault .member⟩) ∧
    ∀ (r : Request) (name : String), (r.installs → r.ident ≠ name) → r.asked? ≠ some name →
      (handle r (s.after rs)).2.machines.get? name = (s.after rs).machines.get? name :=
  ⟨after_recent_iff fresh distinct, fun _ => handle_install_new fresh distinct, fun _ _ => handle_get?_of_ne⟩

/-- A request to install a machine for a script that only reads the close. -/
def installing (ident : String) : Request where
  path := "/install-vm"
  body := some (.obj [("code", .str "close\n"), ("inputs", .obj []),
    ("market", .arr [.str "M", .str "S", .int 60])])
  ident := ident
  clock := .null

def touching (name : String) : Request where
  path := "/touch-vm"
  body := some (.obj [("vmid", .str name)])
  ident := ""
  clock := .null

theorem installing_installs (ident : String) : (installing ident).installs = true := by
  have made : (installing "").installs = true := by decide +kernel
  exact made

theorem installed_installing (idents : List String) : installed (idents.map installing) = idents := by
  induction idents with
  | nil => rfl
  | cons ident idents ih =>
    rw [map_cons, installed, filter_cons_of_pos (installing_installs ident), map_cons]
    exact congrArg (ident :: ·) ih

/-- Of two machines the first is used again. A service that may keep two refuses a third one. -/
theorem cache_recent_touched :
    let s : Service := { limit := 2 }
    let rs := [installing "a", installing "b"] ++ [touching "a"]
    s.machines.entries = [] ∧ (installed rs).Nodup ∧ mostRecent 2 (uses 2 rs) = ["b", "a"] ∧
      (s.after rs).machines.names = mostRecent 2 (uses 2 rs) ∧
      (handle (installing "c") (s.after rs)).1 = ⟨200, .fault .member⟩ := by
  intro s rs
  have names : installed rs = ["a", "b"] :=
    (installed_concat_of_not (by decide +kernel)).trans (installed_installing ["a", "b"])
  have distinct : (installed rs).Nodup := by rw [names]; decide
  obtain ⟨recent, answer, _⟩ := cache_recent (s := s) rfl rs distinct
  refine ⟨rfl, distinct, ?_, (recent 2).mpr (by rw [names]; decide), ?_⟩
  · decide +kernel
  · have refused := answer (installing "c") (installing_installs "c") (by rw [names]; decide)
    rwa [names] at refused

/-- With room for 256 machines, the request to install one more fails, although its machine is kept, and no machine is
    given up for it. -/
theorem full_cache_refuses :
    let idents := (range 256).map fun n => String.ofList (replicate n 'v')
    let r := installing (String.ofList (replicate 256 'v'))
    let rs := idents.map installing
    (installed (rs ++ [r])).Nodup ∧ r.installs ∧
      (handle r (Service.after {} rs)).1 = ⟨200, .fault .member⟩ ∧
      (Service.after {} (rs ++ [r])).machines.names ≠ mostRecent 256 (uses 256 (rs ++ [r])) := by
  intro idents r rs
  have every : (installed (rs ++ [r])) = (range 257).map fun n => String.ofList (replicate n 'v') := by
    rw [installed_concat_of_installs (installing_installs _), installed_installing, range_succ, map_append]
    rfl
  have distinct : (installed (rs ++ [r])).Nodup := by
    rw [every]
    refine nodup_range.map fun m n same => ?_
    have lengths := congrArg String.length same
    simpa using lengths
  have apart : (installed rs).Nodup ∧ r.ident ∉ installed rs := by
    rw [installed_concat_of_installs (installing_installs _)] at distinct
    exact ⟨distinct.of_append_left, fun among =>
      (List.nodup_append.mp distinct).2.2 _ among _ (List.mem_singleton.mpr rfl) rfl⟩
  refine ⟨distinct, installing_installs _, ?_, fun recent => ?_⟩
  · rw [handle_install_new rfl apart.1 (installing_installs _) apart.2, installed_installing, List.length_map,
      length_range]
    rfl
  · have few := (after_recent_iff rfl distinct 256).mp recent
    rw [every, List.length_map, length_range] at few
    omega

end Service

end PineEngine
