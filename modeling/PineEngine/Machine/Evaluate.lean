import PineEngine.Machine.Drawing
import PineEngine.Machine.Input

/-! # Evaluation

What code yields at the current bar, by recursion on the code.

* A definition is evaluated when it has no register yet, and again when its series is not valid up to the
  current bar.
* A choice on a series yields a series. At first an inline choice between valid series is settled for all
  bars at once; any other choice is settled bar by bar.
* A loop counts toward its last value, up or down by one.
-/

namespace PineEngine.Machine

open Script Builtin

def anySeries : Value → Value → Bool
  | .series _, _ => true
  | _, .series _ => true
  | _, _ => false

def arith (op : ArithOp) (a b : Value) : MachineM Value := do
  if anySeries a b then do pure (.series (← onStore (SeriesRef.arith op a b)))
  else Value.arith op a b

def compare (op : CompareOp) (a b : Value) : MachineM Value := do
  if anySeries a b then do pure (.series (← onStore (SeriesRef.compare op a b)))
  else Value.compare op a b

def lookBack (a b : Value) : MachineM Value := do
  match a with
  | .series r =>
    match b with
    | .int n => do pure (.series (← onStore (r.shift n)))
    | .bool t => do pure (.series (← onStore (r.shift (if t then 1 else 0))))
    | _ => throw (.script .indexNotInteger)
  | a => throw (.script (.notIndexable a.typeShown))

def binary (op : BinaryOp) (a b : Value) : MachineM Value :=
  match op with
  | .index => lookBack a b
  | .eq => compare .eq a b
  | .neq => compare .ne a b
  | .gt => compare .gt a b
  | .ge => compare .ge a b
  | .lt => compare .lt a b
  | .le => compare .le a b
  | .add => arith .add a b
  | .sub => arith .sub a b
  | .mul => arith .mul a b
  | .div => arith .div a b
  | .mod => arith .mod a b

/-- An operator on a value. The minus of a series gives the signs of its entries. -/
def unary (op : UnaryOp) (v : Value) : MachineM Value := do
  match op, v with
  | .plus, v => pure v
  | .not, .series r => do pure (.series (← onStore r.logicalNot))
  | .minus, .series r => do pure (.series (← onStore r.sign))
  | .not, v => pure (.bool (!v.isTrue))
  | .minus, v => v.negate

/-- A built-in variable. What is valid for the first bar only is kept and extended bar by bar. -/
def builtinVariable (scope : Scope) (code : Code) (v : Variable) : MachineM Value := do
  if (← bar) == 0 then
    let value ← variableValue v
    if let .series r := value then
      if (← onStore r.valid) == 0 then
        let _ ← setRegister scope code value
    pure value
  else
    match ← getRegister code with
    | .series r => do
      if ← onStore (r.outOfDate (← bar)) then
        setRegisterValue code (← variableValue v)
      pure (.series r)
    | _ => variableValue v

def definition (scope : Scope) (code : Code) (expr : MachineM Value) : MachineM Value := do
  match ← getRegister code with
  | .absent => do
    let v ← expr
    if scope.mutable.contains (code.id?.getD 0) then allocRegister scope code v
    else setRegister scope code v
  | .series r => do
    if ← onStore (r.outOfDate (← bar)) then
      setRegisterValue code (← now (← expr))
    pure (.series r)
  | v => pure v

def repeated (n : Nat) (v : Value) : MachineM SeriesRef := do
  match v with
  | .series r => pure r
  | v => onStore (SeriesRef.replicate n v)

def copied (n : Nat) (v : Value) : MachineM SeriesRef := do
  match v with
  | .series r => onStore r.copy
  | v => onStore (SeriesRef.replicate n v)

/-- An inline choice on a condition that is valid at all bars: entry by entry. -/
def chooseAll (c : SeriesRef) (yes no : MachineM Value) : MachineM Value := do
  let n ← onStore c.length
  let r ← copied n (← yes)
  let other ← repeated n (← no)
  let cond ← onStore c.finite
  onStore (r.replaceUnless cond other n)
  let valid ← onStore c.valid
  onStore (r.setValid valid)
  pure (.series r)

def branch (t : Bool) (yes no : MachineM Value) : MachineM Value :=
  if t then yes else no

/-- A series of defaults that starts with a value, as long as the condition it depends on. -/
def started (c : SeriesRef) (v : Value) : MachineM SeriesRef := do
  match v with
  | .series r => onStore r.toMutable
  | v => onStore (SeriesRef.mutable v (← onStore c.size))

/-- A choice whose register is empty: the branch that the current bar chooses starts a series. -/
def chooseFirst (c : SeriesRef) (yes no : MachineM Value) : MachineM Value := do
  let t ← onStore (c.holdsAt (← bar))
  let v ← branch t yes no
  pure (.series (← started c v))

def chooseNew (inline : Bool) (c : SeriesRef) (yes no : MachineM Value) : MachineM Value := do
  if inline && (← onStore c.filled) then chooseAll c yes no else chooseFirst c yes no

/-- Whether a single condition holds: it counts as true, and is a number. -/
def conditionHolds (c : Value) : Except Fault Bool :=
  if c.isTrue then do pure (!(← c.isNaN)) else .ok false

/-- A choice on the value of its condition. Without a second branch the choice yields nothing if the
    condition does not hold. -/
def choose (scope : Scope) (code : Code) (inline : Bool) (cond : Value) (yes no : MachineM Value) :
    MachineM Value := do
  match cond with
  | .series c =>
    match ← getRegister code with
    | .series r => do
      let t ← onStore (c.holdsAt (← bar))
      let v ← branch t yes no
      if !(← onStore r.filled) then
        setRegisterValue code (← now v)
      pure (.series r)
    | _ => do setRegister scope code (← chooseNew inline c yes no)
  | c => if ← conditionHolds c then yes else no

/-- The counter of a loop, one further. A series is counted on in its place, and keeps its kind. -/
def advance (up : Bool) (counter : Value) : MachineM Value := do
  let op := if up then ArithOp.add else .sub
  match counter with
  | .series r => do
    onStore (r.update fun c => do
      let next ← Column.arith op (.column c) (.single (.int 1))
      if next.cells.kind == c.cells.kind then pure next else .error .operands)
    pure counter
  | v => Value.arith op v (.int 1)

/-- What a round of a loop comes to: the value of the loop, or the counter of the next round. -/
inductive Round where
  | over (v : Value)
  | next (counter : Value)

/-- How many rounds a counter takes at most to come from one number to another, if it comes there. -/
def loopBound (first last : Value) : Nat :=
  match first.toFloat, last.toFloat, first.toInt, last.toInt with
  | .ok _, .ok _, .ok a, .ok b => (b - a).natAbs + 2
  | _, _, _, _ => 2

section Rounds

variable (scope : Scope) (counterCode : Code) (up : Bool) (last : Value) (body : MachineM Value)

/-- Runs the body of a loop, and moves the counter on unless it has its last value. -/
def round (counter : Value) : MachineM Round := do
  let v ← body
  if ← truth (← compare .eq counter last) then pure (.over v)
  else
    let counter ← advance up counter
    let _ ← setRegister scope counterCode counter
    pure (.next counter)

/-- Runs rounds until the counter has its last value; nothing comes of it if it never has. -/
def countOn? (counter : Value) (m : Machine) : Option (Except Fault Value × Machine) :=
  match ((round scope counterCode up last body counter).run).run m with
  | (.ok (.over v), m) => some (.ok v, m)
  | (.ok (.next counter), m) => by
    apply countOn?
    · exact counter
    · exact m
  | (.error .endless, _) => none
  | (.error e, m) => some (.error e, m)
partial_fixpoint

def countOn (counter : Value) : MachineM Value :=
  fun m => (countOn? scope counterCode up last body counter m).getD (.error .endless, m)

/-- Runs so many rounds of a loop at most; if it is not over by then, what comes after them goes on. -/
def rounds (after : Value → MachineM Value) : Nat → Value → MachineM Value
  | 0, counter => after counter
  | n + 1, counter => do
    match ← round scope counterCode up last body counter with
    | .over v => pure v
    | .next counter => rounds after n counter

/-- Runs the body of a loop until the counter has its last value. The rounds that are foreseen are counted; what is not
    over by then goes on, perhaps without end. -/
def iterate : Nat → Value → MachineM Value :=
  rounds scope counterCode up last body (countOn scope counterCode up last body)

end Rounds

def firstEntry : Value → MachineM Value
  | .series r => onStore (r.get 0)
  | v => pure v

def loop (scope : Scope) (counterCode : Code) (first last : MachineM Value) (body : MachineM Value) :
    MachineM Value := do
  let first ← definition scope counterCode first
  let last ← last
  let up ← truth (← compare .le first last)
  let bound := loopBound (← firstEntry first) last
  let v ← iterate scope counterCode up last body bound first
  let _ ← setRegister scope counterCode first
  pure v

def call (code : Code) (name : String) (fn : Function) (args : List Value) (named : Fields) :
    MachineM Value := do
  match fn.role with
  | .input => askInput code args named
  | role =>
    let drawn := role == .drawing && (← get).mode == .plot
    tryCatch (if drawn then draw fn args named else apply fn args named) fun e =>
      match e with
      | .unimplemented => throw (.script (.notImplemented name))
      | e => throw e

mutual

def eval (scope : Scope) : Code → MachineM Value
  | .block _ items => evalBlock scope .absent items
  | .literal _ v => pure v
  | .list _ items => do pure (.list (← evalAll scope items))
  | .anyOf _ items => evalAny scope none items
  | .allOf _ items => evalEvery scope none items
  | .binary _ op a b => do
    let a ← eval scope a
    let b ← eval scope b
    binary op a b
  | .unary _ op a => do unary op (← eval scope a)
  | .builtin line id name v => builtinVariable scope (.builtin line id name v) v
  | .variable _ _ target => eval scope target
  | .call id name fn args named => do
    if fn.role == .header && !(← get).header.isEmpty then pure .absent
    else
      let vs ← evalAll scope args
      let kws ← evalNamed scope named
      call (.call id name fn args named) name fn vs kws
  | .choice line id c y none inline => do
    let cond ← eval scope c
    choose scope (.choice line id c y none inline) inline cond (eval scope y) (pure .absent)
  | .choice line id c y (some e) inline => do
    let cond ← eval scope c
    choose scope (.choice line id c y (some e) inline) inline cond (eval scope y) (eval scope e)
  | .loop _ line id name e l b =>
    loop scope (.define line id name e) (eval scope e) (eval scope l) (eval { scope with inLoop := true } b)
  | .define line id name e => definition scope (.define line id name e) (eval scope e)
  | .assign _ _ target e => do
    let v ← now (← eval scope e)
    setRegisterValue target v
    pure (.definition (target.id?.getD 0))
  | .inlined _ _ args body => do
    let _ ← evalBlock scope .absent args
    eval scope body

def evalBlock (scope : Scope) (last : Value) : List Code → MachineM Value
  | [] => pure last
  | c :: rest => do evalBlock scope (← eval scope c) rest

def evalAll (scope : Scope) : List Code → MachineM (List Value)
  | [] => pure []
  | c :: rest => do
    let v ← eval scope c
    let vs ← evalAll scope rest
    pure (v :: vs)

def evalNamed (scope : Scope) : List (String × Code) → MachineM Fields
  | [] => pure []
  | (k, c) :: rest => do
    let v ← eval scope c
    let vs ← evalNamed scope rest
    pure ((k, v) :: vs)

/-- Whether one of several conditions holds. A single value that counts as true is the answer at once;
    series are combined, the latest one first. -/
def evalAny (scope : Scope) (found : Option SeriesRef) : List Code → MachineM Value
  | [] => pure (match found with
    | some r => .series r
    | none => .bool false)
  | c :: rest => do
    match ← eval scope c, found with
    | .series r, none => evalAny scope (some r) rest
    | .series r, some s => do
      let t ← onStore (r.logic false (.series s))
      evalAny scope (some t) rest
    | v, _ => if v.isTrue then pure v else evalAny scope found rest

/-- Whether all of several conditions hold. A single value that counts as false is the answer at once. -/
def evalEvery (scope : Scope) (found : Option SeriesRef) : List Code → MachineM Value
  | [] => pure (match found with
    | some r => .series r
    | none => .bool true)
  | c :: rest => do
    match ← eval scope c, found with
    | .series r, none => evalEvery scope (some r) rest
    | .series r, some s => do
      let t ← onStore (r.logic true (.series s))
      evalEvery scope (some t) rest
    | v, _ => if v.isTrue then evalEvery scope found rest else pure v

end

end PineEngine.Machine
