import PineEngine.Builtin.Function
import PineEngine.Fault
import PineEngine.Script.Tree

/-! # Calls of functions of the script

A script may define functions. Expansion removes the definitions and puts the body of a function in place
of every call, after definitions of the parameters. A function can be called from the statement after
its definition on, also outside the block that holds the definition, and a later definition of a name
replaces an earlier one. So no function calls itself.
-/

namespace PineEngine.Script

/-- A function of the script: its line, its parameters, and its body with all calls expanded. -/
structure UserFunction where
  line : Line
  params : List String
  body : Tree

abbrev UserFunctions := List (String × UserFunction)

abbrev ExpandM := StateT UserFunctions (Except Fault)

namespace Tree

def isFunction : Tree → Bool
  | .function _ _ _ _ => true
  | _ => false

/-- A call of a function of the script. Arguments beyond the parameters are dropped, and so are arguments
    by name. Only functions of two or more parameters can be called. -/
def callUser (name : String) (f : UserFunction) (args : List Tree) : Except Fault Tree :=
  match f.params with
  | [_] => .error .member
  | params => .ok (.inlined name params ((params.zip args).map fun (p, e) => .define f.line p e) f.body)

mutual

def expand : Tree → ExpandM Tree
  | .block line items => do pure (.block line (← expandItems items))
  | .literal line v => pure (.literal line v)
  | .list line items => do pure (.list line (← expandItems items))
  | .anyOf line items => do pure (.anyOf line (← expandItems items))
  | .allOf line items => do pure (.allOf line (← expandItems items))
  | .binary line op a b => do
    let a ← a.expand
    let b ← b.expand
    pure (.binary line op a b)
  | .unary line op a => do pure (.unary line op (← a.expand))
  | .variable line name => pure (.variable line name)
  | .call line name args named => do
    let found := (← get).lookup name
    if found.isNone && (Builtin.Function.ofName? name).isNone then
      throw (.script (.functionNotFound name))
    let args ← expandItems args
    let named ← expandNamed named
    match found with
    | some f => callUser name f args
    | none => pure (.call line name args named)
  | .choice line c y none inline => do
    let c ← c.expand
    let y ← y.expand
    pure (.choice line c y none inline)
  | .choice line c y (some e) inline => do
    let c ← c.expand
    let y ← y.expand
    let e ← e.expand
    pure (.choice line c y (some e) inline)
  | .loop line counterLine counter first l b => do
    let first ← first.expand
    let l ← l.expand
    let b ← b.expand
    pure (.loop line counterLine counter first l b)
  | .function line name params body => do
    let body ← body.expand
    modify fun fs => (name, ⟨line, params, body⟩) :: fs
    pure (.function line name params body)
  | .define line name e => do pure (.define line name (← e.expand))
  | .assign line name e => do pure (.assign line name (← e.expand))
  | .inlined name params args body => do
    let args ← expandItems args
    let body ← body.expand
    pure (.inlined name params args body)
  | .empty => throw .member
  | .word _ => throw .member

/-- The trees in a row with all calls expanded, without the definitions of functions. -/
def expandItems : List Tree → ExpandM (List Tree)
  | [] => pure []
  | t :: rest => do
    let t ← t.expand
    let rest ← expandItems rest
    pure (if t.isFunction then rest else t :: rest)

def expandNamed : List (String × Tree) → ExpandM (List (String × Tree))
  | [] => pure []
  | (k, t) :: rest => do
    let t ← t.expand
    let rest ← expandNamed rest
    pure ((k, t) :: rest)

end

end Tree

end PineEngine.Script
