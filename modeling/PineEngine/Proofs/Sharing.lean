import PineEngine.Proofs.Occasions

/-! # Shared series

Every definition that some assignment changes has a series of its own, of doubles or of integers, that no choice keeps.
Any other definition keeps what its expression gave when it was first evaluated. If the expression is a mere reference
to a definition that assignments change, that is the very series of this definition, so the two share it from then on
(`Machine.Allotted`).

Evaluation keeps this up, and a definition that has come to a series stays with it (`Machine.eval_tends`).
-/

namespace PineEngine

open Script Builtin Computation Store SeriesRef Code

variable {id x : Nat}

namespace Script.Code

def DefinedAt (nodes : List Code) (id : Nat) : Prop :=
  ∃ line name e, nodes[id]? = some (.define line id name e)

def ChosenAt (nodes : List Code) (id : Nat) : Prop :=
  ∃ line c yes no inline, nodes[id]? = some (.choice line id c yes no inline)

variable {nodes : List Code} {ids : List Nat}

theorem DefinedAt.ne_of_chosen (defined : DefinedAt nodes x) (chosen : ChosenAt nodes id) : x ≠ id := by
  rintro rfl
  obtain ⟨_, _, _, defined⟩ := defined
  obtain ⟨_, _, _, _, _, chosen⟩ := chosen
  cases defined.symm.trans chosen

/-- The definition that code refers to, if it does nothing else, among those with the given numbers. The way there
    leads through definitions with other numbers. -/
def refersTo (ids : List Nat) : Code → Option Nat
  | .variable _ _ target => target.refersTo ids
  | .define _ id _ e => if id ∈ ids then some id else e.refersTo ids
  | _ => none

theorem refersTo_own (mem : id ∈ ids) (line : Line) (name : String) (e : Code) :
    (define line id name e).refersTo ids = some id := by
  rw [refersTo, if_pos mem]

theorem refersTo_fixed (fixed : id ∉ ids) (line : Line) (name : String) (e : Code) :
    (define line id name e).refersTo ids = e.refersTo ids := by
  rw [refersTo, if_neg fixed]

theorem refersTo_eq_some (code : Code) (fit : code.fits nodes) (refers : code.refersTo ids = some x) :
    x ∈ ids ∧ DefinedAt nodes x := by
  cases code with
  | «variable» line name target => exact refersTo_eq_some target fit refers
  | define line id name e =>
    by_cases mem : id ∈ ids
    · rw [refersTo_own mem] at refers
      cases refers
      exact ⟨mem, line, name, e, fit.1⟩
    · rw [refersTo_fixed mem] at refers
      exact refersTo_eq_some e (fits_mono (List.take_prefix id nodes) e fit.2) refers
  | _ => cases refers

theorem refersTo_lt {y : Nat} {e : Code} (fit : e.fits (nodes.take y)) (refers : e.refersTo ids = some x) : x < y := by
  obtain ⟨_, _, _, _, known⟩ := refersTo_eq_some e fit refers
  have short := (List.getElem?_eq_some_iff.mp known).1
  have := List.length_take_le y nodes
  omega

end Script.Code

namespace Store

def Numbers (s : Store) (n : Nat) (r : SeriesRef) : Prop :=
  ∃ h c, s.series[r.id]? = some h ∧ s.columns[h.column]? = some c ∧ c.Numeric n

variable {s s' : Store} {n : Nat} {r : SeriesRef}

theorem Numbers.mono (numbers : s.Numbers n r) (revises : s.Revises s') : s'.Numbers n r := by
  obtain ⟨h, c, head, column, numeric⟩ := numbers
  obtain ⟨h', head', _, same⟩ := revises.heads _ h head
  obtain ⟨c', column', form⟩ := revises.columns _ c column
  refine ⟨h', c', head', same ▸ column', form.rows.trans numeric.flat, form.length.trans numeric.length, ?_⟩
  rw [form.kind]
  exact numeric.kind

theorem Numbers.present (numbers : s.Numbers n r) : r.id < s.series.size := by
  obtain ⟨h, c, head, _⟩ := numbers
  exact (Array.getElem?_eq_some_iff.mp head).1

theorem alloc_numbers {c : Column} (numeric : c.Numeric n) (valid : Int) (origin : Origin) :
    (s.alloc c valid origin).2.Numbers n ⟨s.series.size⟩ :=
  ⟨_, c, Array.getElem?_push_size, Array.getElem?_push_size, numeric⟩

end Store

namespace Machine

variable {nodes part : List Code} {ids : List Nat} {m m' m'' : Machine} {name : String}

/-- A series that is in the store, and that no definition with one of the given numbers has. -/
structure Unowned (nodes : List Code) (ids : List Nat) (m : Machine) (r : SeriesRef) : Prop where
  present : r.id < m.store.series.size
  apart : ∀ x ∈ ids, Code.DefinedAt nodes x → ¬ m.Bound (some x) r

/-- How series are given to the definitions among numbered nodes. Those with the given numbers have series of their
    own, and what merely refers to one of them has its series. -/
structure Allotted (nodes : List Code) (ids : List Nat) (m : Machine) : Prop where
  numbers : ∀ x ∈ ids, Code.DefinedAt nodes x → ∀ r, m.Bound (some x) r → m.store.Numbers m.size r
  chosen : ∀ id, Code.ChosenAt nodes id → ∀ r, m.Bound (some id) r → m.Unowned nodes ids r
  apart : ∀ x ∈ ids, Code.DefinedAt nodes x → ∀ y ∈ ids, Code.DefinedAt nodes y → ∀ r, m.Bound (some x) r →
    m.Bound (some y) r → x = y
  refers : ∀ {line id name e x}, nodes[id]? = some (.define line id name e) →
    (Code.define line id name e).refersTo ids = some x → x ∈ ids → Code.DefinedAt nodes x →
    ∀ v, m.holds (some id) = some v → v ≠ .absent → ∃ r, v = .series r ∧ m.Bound (some x) r

theorem Allotted.present (allotted : m.Allotted nodes ids) (x : Nat) (mem : x ∈ ids)
    (defined : Code.DefinedAt nodes x) (r : SeriesRef) (bound : m.Bound (some x) r) : r.id < m.store.series.size :=
  (allotted.numbers x mem defined r bound).present

/-- A definition that has a series stays with it. What has none gets a new one, and series are given out as before. -/
structure TendsTo (nodes : List Code) (ids : List Nat) (m m' : Machine) : Prop where
  bar : m'.barNow = m.barNow
  size : m.store.series.size ≤ m'.store.series.size
  new : ∀ x ∈ ids, Code.DefinedAt nodes x → ∀ r, m'.Bound (some x) r →
    m.Bound (some x) r ∨ m.store.series.size ≤ r.id
  stays : ∀ id, Code.DefinedAt nodes id → ∀ r, m.Bound (some id) r → m'.Bound (some id) r
  allotted : m'.Allotted nodes ids

/-- What may become of a machine whose series are given out rightly. -/
def Tends (nodes : List Code) (ids : List Nat) (m m' : Machine) : Prop :=
  m.Allotted nodes ids → TendsTo nodes ids m m'

theorem TendsTo.trans (first : TendsTo nodes ids m m') (second : TendsTo nodes ids m' m'') :
    TendsTo nodes ids m m'' where
  bar := second.bar.trans first.bar
  size := Nat.le_trans first.size second.size
  new x mem defined r bound :=
    (second.new x mem defined r bound).elim (first.new x mem defined r) fun new => .inr (Nat.le_trans first.size new)
  stays id defined r bound := second.stays id defined r (first.stays id defined r bound)
  allotted := second.allotted

theorem TendsTo.refl (allotted : m.Allotted nodes ids) : TendsTo nodes ids m m :=
  ⟨rfl, Nat.le_refl _, fun _ _ _ _ bound => .inl bound, fun _ _ _ bound => bound, allotted⟩

instance : Std.Refl (Tends nodes ids) :=
  ⟨fun _ => .refl⟩

instance : Trans (Tends nodes ids) (Tends nodes ids) (Tends nodes ids) :=
  ⟨fun first second allotted => (first allotted).trans (second (first allotted).allotted)⟩

theorem Allotted.of_holds (allotted : m.Allotted nodes ids) (market : m'.market = m.market)
    (revises : m.store.Revises m'.store) (same : ∀ id, m'.holds id = m.holds id) : m'.Allotted nodes ids where
  numbers x mem defined r bound := by
    rw [Bound, same] at bound
    rw [size, market]
    exact (allotted.numbers x mem defined r bound).mono revises
  chosen id chosen r bound := by
    rw [Bound, same] at bound
    obtain ⟨present, apart⟩ := allotted.chosen id chosen r bound
    refine ⟨revises.heads.lt present, fun x mem defined => ?_⟩
    rw [Bound, same]
    exact apart x mem defined
  apart x mem defined y among' defined' r bound bound' := by
    rw [Bound, same] at bound bound'
    exact allotted.apart x mem defined y among' defined' r bound bound'
  refers known refers mem defined v held h := by
    rw [same] at held
    simp only [Bound, same]
    exact allotted.refers known refers mem defined v held h

variable {r : SeriesRef} {line : Line}

theorem Allotted.unowned (allotted : m.Allotted nodes ids) (same : m'.context = m.context)
    (added : m.store.Added m'.store r) : m'.Unowned nodes ids r := by
  refine ⟨added.present, fun x mem defined bound => ?_⟩
  rw [Bound, holds, same] at bound
  exact Nat.not_lt.mpr added.series (allotted.present x mem defined r bound)

theorem Unowned.tends (unowned : m.Unowned nodes ids r) (tends : TendsTo nodes ids m m') : m'.Unowned nodes ids r := by
  refine ⟨Nat.lt_of_lt_of_le unowned.present tends.size, fun x mem defined bound => ?_⟩
  rcases tends.new x mem defined r bound with old | new
  · exact unowned.apart x mem defined old
  · exact Nat.not_lt.mpr new unowned.present

theorem tends_of_holds (bar : m'.barNow = m.barNow) (same : ∀ id, m'.holds id = m.holds id)
    (market : m'.market = m.market) (revises : m.store.Revises m'.store) : Tends nodes ids m m' :=
  fun allotted => ⟨bar, revises.heads.size_le, fun _ _ _ _ bound => .inl ((same _).symm.trans bound),
    fun _ _ _ bound => (same _).trans bound, allotted.of_holds market revises same⟩

theorem tends_of_context (same : m'.context = m.context) (market : m'.market = m.market)
    (revises : m.store.Revises m'.store) : Tends nodes ids m m' :=
  tends_of_holds (by rw [barNow, same, barNow]) (fun _ => by rw [holds, same, holds]) market revises

theorem Quiet.tends (quiet : m.Quiet m') : Tends nodes ids m m' :=
  tends_of_context quiet.context quiet.market quiet.store.revises

instance : Writing (Tends nodes ids) where
  store _ _ grows := tends_of_context rfl rfl grows.revises
  header m _ := tends_of_context rfl rfl (Std.Refl.refl m.store)
  outputs m _ := tends_of_context rfl rfl (Std.Refl.refl m.store)
  fills m _ := tends_of_context rfl rfl (Std.Refl.refl m.store)
  broker m _ _ _ _ := tends_of_context rfl rfl (Std.Refl.refl m.store)
  write _ _ revises := tends_of_context rfl rfl revises

section Put

variable {code : Code} {v : Value}

theorem bound_put {id : Option Nat} (other : code.id? ≠ id) : (m.put code v).Bound id r ↔ m.Bound id r := by
  rw [Bound, holds_put_ne other, Bound]

theorem tends_of_put (free : ∀ id, code.id? = some id → Code.DefinedAt nodes id → ∀ r, m.Bound (some id) r → v = .series r)
    (fixed : ∀ x ∈ ids, Code.DefinedAt nodes x → code.id? ≠ some x)
    (allotted : m.Allotted nodes ids → (m.put code v).Allotted nodes ids) : Tends nodes ids m (m.put code v) :=
  fun before => ⟨barNow_put m code v, Nat.le_refl _,
    fun x mem defined _ bound => .inl ((bound_put (fixed x mem defined)).mp bound),
    fun id defined r bound => bound.put fun here => free id here defined r bound, allotted before⟩

def FitsChoice (nodes : List Code) (ids : List Nat) (m : Machine) (code : Code) (v : Value) : Prop :=
  ∀ id, code.id? = some id → Code.ChosenAt nodes id → ∀ r, v = .series r → m.Unowned nodes ids r

theorem FitsChoice.of_define {e : Code} (known : nodes[id]? = some (.define line id name e)) :
    FitsChoice nodes ids m (.define line id name e) v := by
  rintro _ ⟨⟩ chosen
  exact (Code.DefinedAt.ne_of_chosen ⟨line, name, e, known⟩ chosen rfl).elim

/-- A value is kept for a node that is no definition with one of the given numbers, but it may be one that refers to
    such a definition. -/
theorem Allotted.put (allotted : m.Allotted nodes ids)
    (fixed : ∀ x ∈ ids, Code.DefinedAt nodes x → code.id? ≠ some x) (choice : FitsChoice nodes ids m code v)
    (value : ∀ line id name e x, code.id? = some id → nodes[id]? = some (.define line id name e) →
      (Code.define line id name e).refersTo ids = some x → x ∈ ids → Code.DefinedAt nodes x → v ≠ .absent →
      ∃ r, v = .series r ∧ m.Bound (some x) r) :
    (m.put code v).Allotted nodes ids where
  numbers x mem defined r bound :=
    allotted.numbers x mem defined r ((bound_put (fixed x mem defined)).mp bound)
  chosen id chosen r bound := by
    have unowned : m.Unowned nodes ids r := by
      obtain ⟨here, value⟩ | bound := holds_of_put bound
      · exact choice id here chosen r value
      · exact allotted.chosen id chosen r bound
    exact ⟨unowned.present, fun x mem defined bound => unowned.apart x mem defined
      ((bound_put (fixed x mem defined)).mp bound)⟩
  apart x mem defined y among' defined' r bound bound' :=
    allotted.apart x mem defined y among' defined' r ((bound_put (fixed x mem defined)).mp bound)
      ((bound_put (fixed y among' defined')).mp bound')
  refers {line id name e x} known refers mem defined w held h := by
    simp only [bound_put (fixed x mem defined)]
    obtain ⟨here, rfl⟩ | held := holds_of_put held
    · exact value line id name e x here known refers mem defined h
    · exact allotted.refers known refers mem defined w held h

theorem Allotted.put_new (allotted : m.Allotted nodes ids) (number : code.id? = some x)
    (defined : Code.DefinedAt nodes x) (free : ∀ r', ¬ m.Bound (some x) r') (numbers : m.store.Numbers m.size r)
    (new : ∀ y ∈ ids, Code.DefinedAt nodes y → ¬ m.Bound (some y) r)
    (unchosen : ∀ id, Code.ChosenAt nodes id → ¬ m.Bound (some id) r) (own : x ∈ ids) :
    (m.put code (.series r)).Allotted nodes ids := by
  have only {r' : SeriesRef} (bound : (m.put code (.series r)).Bound (some x) r') : r' = r := by
    obtain ⟨_, same⟩ | old := holds_of_put bound
    · exact (Value.series.inj same).symm
    · exact (free r' old).elim
  have other {y : Nat} (ne : y ≠ x) {r' : SeriesRef} :
      (m.put code (.series r)).Bound (some y) r' ↔ m.Bound (some y) r' :=
    bound_put fun same => ne (Option.some.inj (same.symm.trans number))
  refine ⟨fun y mem defined r' bound => ?_, fun id chosen r' bound => ?_,
    fun y mem defined' z among' defined'' r' bound bound' => ?_, ?_⟩
  · by_cases same : y = x
    · subst same
      rw [only bound]
      exact numbers
    · exact allotted.numbers y mem defined r' ((other same).mp bound)
  · have bound := (other (defined.ne_of_chosen chosen).symm).mp bound
    obtain ⟨present, apart⟩ := allotted.chosen id chosen r' bound
    refine ⟨present, fun y mem defined' bound' => ?_⟩
    by_cases same : y = x
    · subst same
      rw [only bound'] at bound
      exact unchosen id chosen bound
    · exact apart y mem defined' ((other same).mp bound')
  · by_cases same : y = x <;> by_cases same' : z = x
    · rw [same, same']
    · subst same
      rw [only bound] at bound'
      exact (new z among' defined'' ((other same').mp bound')).elim
    · subst same'
      rw [only bound'] at bound
      exact (new y mem defined' ((other same).mp bound)).elim
    · exact allotted.apart y mem defined' z among' defined'' r' ((other same).mp bound) ((other same').mp bound')
  · intro line id name e y known refers mem defined w held h
    obtain ⟨numbered, rfl⟩ | held' := holds_of_put held
    · cases Option.some.inj (numbered.symm.trans number)
      rw [refersTo_own own] at refers
      cases refers
      exact ⟨r, rfl, held⟩
    · obtain ⟨r', rfl, bound⟩ := allotted.refers known refers mem defined w held' h
      have ne : y ≠ x := by
        rintro rfl
        exact free r' bound
      exact ⟨r', rfl, (other ne).mpr bound⟩

theorem put_tends (other : ∀ id, code.id? = some id → ¬ Code.DefinedAt nodes id)
    (choice : FitsChoice nodes ids m code v) : Tends nodes ids m (m.put code v) := by
  have fixed (x : Nat) (_ : x ∈ ids) (defined : Code.DefinedAt nodes x) : code.id? ≠ some x := fun here =>
    other x here defined
  refine tends_of_put (fun id here defined => (other id here defined).elim) fixed fun allotted => ?_
  refine allotted.put fixed choice ?_
  intro line id name e x here known
  exact (other id here ⟨line, name, e, known⟩).elim

end Put

variable {id : Nat} {name : String} {e : Code} {scope : Scope} {m₀ m₁ : Machine} {first v : Value} {k : Nat}

theorem TendsTo.of_new (allotted : m.Allotted nodes ids)
    (defined : Code.DefinedAt nodes id) (own : id ∈ ids) (free : ∀ r, ¬ m.Bound (some id) r)
    (same : m₁.context = m.context) (market : m₁.market = m.market) (revises : m.store.Revises m₁.store)
    (new : m.store.series.size ≤ r.id) (numbers : m₁.store.Numbers m₁.size r) :
    TendsTo nodes ids m (m₁.put (.define line id name e) (.series r)) := by
  have bar : m₁.barNow = m.barNow := by rw [barNow, same, barNow]
  have holds (id : Option Nat) : m₁.holds id = m.holds id := by rw [Machine.holds, same, Machine.holds]
  have number : (Code.define line id name e).id? = some id := rfl
  have other {y : Nat} (ne : id ≠ y) {r' : SeriesRef} :
      (m₁.put (.define line id name e) (.series r)).Bound (some y) r' ↔ m.Bound (some y) r' := by
    rw [bound_put (number ▸ fun same => ne (Option.some.inj same)), Bound, holds, Bound]
  refine ⟨(barNow_put ..).trans bar, revises.heads.size_le, fun x _ _ r' bound => ?_, fun y _ r' bound => ?_, ?_⟩
  · obtain ⟨_, same⟩ | old := holds_of_put bound
    · cases same
      exact .inr new
    · exact .inl ((holds _).symm.trans old)
  · by_cases same : id = y
    · subst same
      exact (free r' bound).elim
    · exact (other same).mpr bound
  · refine (allotted.of_holds market revises holds).put_new rfl defined ?_ numbers ?_ ?_ own <;>
      simp only [Bound, holds]
    · exact free
    · exact fun y mem defined bound => Nat.not_lt.mpr new (allotted.present y mem defined r bound)
    · exact fun id chosen bound => Nat.not_lt.mpr new (allotted.chosen id chosen r bound).present

/-- A computation gives the series of the definition that its code refers to. -/
def Refers (nodes : List Code) (ids : List Nat) (code : Code) (x : MachineM Value) : Prop :=
  ∀ m, m.Sound (fun _ => False) → m.Allotted nodes ids → ∀ y, code.refersTo ids = some y →
    ∀ v m', outcome x m = (.ok v, m') → ∃ r, v = .series r ∧ m'.Bound (some y) r

theorem not_definedAt {node : Code} (known : nodes[id]? = some node)
    (other : ∀ line name e, node ≠ .define line id name e) : ¬ Code.DefinedAt nodes id := by
  rintro ⟨line, name, e, defined⟩
  exact other line name e (Option.some.inj (known.symm.trans defined))

theorem Made.unowned (made : Made (Tends nodes ids) m m' r) (allotted : m.Allotted nodes ids) :
    m'.Unowned nodes ids r := by
  obtain ⟨before, quiet, added, since, context, filled⟩ := made
  have allotted := (before allotted).allotted
  have unowned := (allotted.unowned quiet.context added).tends (since (quiet.tends allotted).allotted)
  refine ⟨filled.size.symm ▸ unowned.present, fun x mem defined bound => unowned.apart x mem defined ?_⟩
  rw [Bound, holds, context] at bound
  exact bound

/-- A loop counts with the series that its counter is kept in, or with single values if there is no series and the
    counter refers to none. -/
theorem count_tends (known : nodes[id]? = some (.define line id name e)) (held : m₀.holds (some id) = some first)
    (given : first = .absent → id ∉ ids) (allotted : m₀.Allotted nodes ids) (since : TendsTo nodes ids m₀ m)
    (counted : Counted first v) : TendsTo nodes ids m₀ (m.put (.define line id name e) v) := by
  have defined : Code.DefinedAt nodes id := ⟨line, name, e, known⟩
  by_cases series : ∃ r, first = .series r
  · obtain ⟨r, rfl⟩ := series
    obtain rfl : v = .series r := counted.resolve_right fun single => single.2.1 r rfl
    have kept := since.stays id defined r held
    refine since.trans (tends_of_holds (barNow_put ..) (fun y => ?_) rfl (Std.Refl.refl m.store) since.allotted)
    by_cases number : (Code.define line id name e).id? = y
    · exact number ▸ (kept.put fun _ => rfl).trans kept.symm
    · exact holds_put_ne number ..
  · have single (r : SeriesRef) : v ≠ .series r := by
      rintro rfl
      exact counted.elim (fun same => series ⟨r, same.symm⟩) fun single => single.1 r rfl
    have refersNone {x : Nat} (goes : (Code.define line id name e).refersTo ids = some x) (mem : x ∈ ids)
        (defined : Code.DefinedAt nodes x) : first = .absent :=
      Classical.byContradiction fun h =>
        series ((allotted.refers known goes mem defined first held h).imp fun _ => And.left)
    have fixed : id ∉ ids := fun mem => given (refersNone (refersTo_own mem line name e) mem defined) mem
    refine ⟨(barNow_put ..).trans since.bar, since.size, fun x mem defined r bound => ?_,
      fun y defined r bound => (since.stays y defined r bound).put fun number => ?_, ?_⟩
    · obtain ⟨_, value⟩ | old := holds_of_put bound
      · exact (single r value).elim
      · exact since.new x mem defined r old
    · cases number
      exact (series ⟨r, Option.some.inj (held.symm.trans bound)⟩).elim
    · refine since.allotted.put (fun x mem _ number => ?_) (.of_define known)
        fun line' y name' e' x number known' goes mem defined h => ?_
      · cases number
        exact fixed mem
      · cases number
        cases known.symm.trans known'
        have absent := refersNone goes mem defined
        exact (counted.elim (fun same => h (same.trans absent)) fun single => single.2.2 absent).elim

theorem Calm.defined {counts : Prop} (calm : Calm (nodes.take k) ids counts (.define line id name e)) :
    id < k ∧ nodes[id]? = some (.define line id name e) ∧ Calm (nodes.take id) ids counts e := by
  have low : id < k := Nat.lt_of_lt_of_le (List.getElem?_eq_some_iff.mp calm.fits.1).1 (List.length_take_le k nodes)
  have fits := calm.fits.2
  rw [List.take_take, Nat.min_eq_left (Nat.le_of_lt low)] at fits
  have part := calm.part (.head _)
  exact ⟨low, (fits_mono (List.take_prefix k nodes) _ calm.fits).1, part.closed, fits, part.marked, part.counting⟩

section

variable (refers : ∀ {id : Nat} {e : Code} {scope : Scope}, id < k → Calm (nodes.take id) ids True e →
  scope.mutable = ids → Refers nodes ids e (eval scope e))

include refers

theorem tends_permits : Permits (nodes.take k) ids True (Tends nodes ids) where
  refl := Std.Refl.refl
  trans := Trans.trans
  quiet := Quiet.tends
  builtin calm _ _ := by
    have known := fits_mono (List.take_prefix k nodes) _ calm.fits
    refine put_tends ?_ ?_
    · rintro _ ⟨⟩
      exact not_definedAt known nofun
    · rintro _ ⟨⟩ ⟨_, _, _, _, _, chosen⟩
      cases known.symm.trans chosen
  define {m m' line id name e scope v} calm own fixed sound before evaluated free allotted := by
    obtain ⟨low, known, part⟩ := calm.defined
    have fixed' (x : Nat) (mem : x ∈ ids) (_ : Code.DefinedAt nodes x) : (Code.define line id name e).id? ≠ some x := by
      rintro ⟨⟩
      exact fixed mem
    have after := (before allotted).allotted
    refine (before allotted).trans (tends_of_put (fun y number _ r bound => ?_) fixed' (fun _ => ?_) after)
    · cases number
      exact (free r bound).elim
    · refine after.put fixed' (.of_define known) fun line' y name' e' x number known' goes _ _ _ => ?_
      cases number
      cases known.symm.trans known'
      rw [refersTo_fixed fixed] at goes
      exact refers low part own m sound allotted x goes v m' evaluated
  alloc calm own free numeric allotted :=
    .of_new allotted ⟨_, _, _, calm.defined.2.1⟩ own free rfl rfl (alloc_grows ..).revises (Nat.le_refl _)
      (alloc_numbers numeric (-1) .plain)
  choose calm _ before made allotted := by
    have known := (fits_numbered (fits_mono (List.take_prefix k nodes) _ calm.fits) rfl).1
    refine (before allotted).trans (put_tends ?_ ?_ (before allotted).allotted)
    · rintro _ ⟨⟩
      exact not_definedAt known fun _ _ _ => Code.noConfusion
    · rintro _ _ _ r ⟨⟩
      exact made.unowned allotted
  fill before _ _ _ revises allotted :=
    (before allotted).trans (tends_of_context rfl rfl revises (before allotted).allotted)
  write {_ _ _ r bar} before _ _ _ _ v :=
    have stores : Obeys (Tends nodes ids) (storeAt r bar v) :=
      .bind (onStore_obeys (set_revises r bar v)) fun _ => onStore_obeys (setValid_revises r bar)
    Trans.trans before (stores _)
  count calm _ held given _ before counted allotted :=
    count_tends calm.defined.2.1 held given allotted (before allotted) counted
  advance _ _ _ up := advance_obeys up _ _

theorem definition_refers (calm : Calm (nodes.take k) ids True (.define line id name e)) (own : scope.mutable = ids) :
    Refers nodes ids (.define line id name e) (eval scope (.define line id name e)) := by
  intro m sound allotted x goes v m' found
  have ended := (tends_permits refers).eval calm own sound allotted
  rw [leaves, found] at ended
  obtain ⟨low, known, part⟩ := calm.defined
  have h : v ≠ .absent := by
    rintro rfl
    obtain ⟨fixed, m₁, evaluated⟩ := definition_absent found
    rw [own] at fixed
    obtain ⟨r, same, _⟩ := refers low part own m sound allotted x ((refersTo_fixed fixed line name e).symm.trans goes) _ _
      evaluated
    cases same
  obtain ⟨mem, defined⟩ := refersTo_eq_some _ (fits_mono (List.take_prefix k nodes) _ calm.fits) goes
  exact ended.allotted.refers known goes mem defined v (definition_holds (calm.alone rfl (.head _) scope) found) h

end

/-- What code refers to is led back to the definitions before it. -/
theorem refers_take (k : Nat) (code : Code) (calm : Calm (nodes.take k) ids True code) (own : scope.mutable = ids) :
    Refers nodes ids code (eval scope code) := by
  induction k using Nat.strongRecOn generalizing scope code with
  | ind k ih =>
    have lower {id : Nat} {e : Code} {scope : Scope} (low : id < k) (calm : Calm (nodes.take id) ids True e)
        (own : scope.mutable = ids) : Refers nodes ids e (eval scope e) := ih id low e calm own
    induction code using children_induction with
    | step code ih' =>
      cases code with
      | «variable» line name target => exact ih' target (.head _) (calm.part (.head _))
      | define line id name e => exact definition_refers lower calm own
      | _ => exact fun _ _ _ _ goes => nomatch goes

variable {code : Code}

theorem eval_refers (calm : Calm nodes ids True code) (own : scope.mutable = ids) :
    Refers nodes ids code (eval scope code) :=
  refers_take nodes.length code (by rwa [List.take_length]) own

theorem eval_tends (calm : Calm nodes ids True code) (own : scope.mutable = ids) (sound : m.Sound fun _ => False) :
    Tends nodes ids m (leaves (eval scope code) m) :=
  have permits : Permits (nodes.take nodes.length) ids True (Tends nodes ids) :=
    tends_permits fun {id e scope} _ calm own => refers_take id e calm own
  permits.eval (by rwa [List.take_length]) own sound

end Machine

end PineEngine
