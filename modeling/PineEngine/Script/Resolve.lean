import PineEngine.Script.Code
import PineEngine.Script.Expand
import PineEngine.Script.Parser

/-! # What names mean

A name means the latest definition in the innermost scope that has one, and a built-in variable if no
scope has. The branches of a choice, a loop and a call of a function of the script each have a scope of
their own. A definition is visible from the statement after it on, not in its own expression.

`compile` is the way from a text to a program.
-/

namespace PineEngine.Script

open Builtin

/-- The definitions that are visible, scope by scope, the innermost first. -/
abbrev Scopes := List (List (String × Code))

/-- What resolution keeps: the scopes, the next number for a node, and the definitions that were assigned
    to. -/
structure Resolution where
  scopes : Scopes := [[]]
  next : Nat := 0
  mutable : List Nat := []

abbrev ResolveM := ExceptT Fault (StateM Resolution)

namespace Scopes

def find? (scopes : Scopes) (name : String) : Option Code :=
  scopes.findSome? (·.lookup name)

def define (scopes : Scopes) (name : String) (c : Code) : Scopes :=
  match scopes with
  | [] => [[(name, c)]]
  | scope :: rest => ((name, c) :: scope) :: rest

end Scopes

namespace ResolveM

def fresh : ResolveM Nat :=
  modifyGet fun s => (s.next, { s with next := s.next + 1 })

/-- Runs a resolution in a scope of its own, which ends also when it fails. -/
def inScope {α : Type} (m : ResolveM α) : ResolveM α := do
  modify fun s => { s with scopes := [] :: s.scopes }
  tryFinally m (modify fun s => { s with scopes := s.scopes.drop 1 })

end ResolveM

def resolveName (line : Line) (name : String) : ResolveM Code := do
  match (← get).scopes.find? name with
  | some target => pure (.variable line name target)
  | none =>
    match Variable.ofName? name with
    | none => throw (.script (.variableNotFound name))
    | some v =>
      match v.folded? with
      | some value => pure (.literal line value)
      | none => do pure (.builtin line (← ResolveM.fresh) name v)

def resolveTarget (name : String) : ResolveM Code := do
  match (← get).scopes.find? name with
  | some target =>
    if let some id := target.id? then
      modify fun s => { s with mutable := if s.mutable.contains id then s.mutable else id :: s.mutable }
    pure target
  | none =>
    match Variable.ofName? name with
    | none => throw (.script (.variableNotFound name))
    | some _ => throw (.script (.assignToBuiltin name))

def resolveDefine (line : Line) (name : String) (e : Code) : ResolveM Nat := do
  let id ← ResolveM.fresh
  modify fun s => { s with scopes := s.scopes.define name (.define line id name e) }
  pure id

namespace Tree

mutual

def resolve : Tree → ResolveM Code
  | .block line items => do pure (.block line (← resolveItems items))
  | .literal line v => pure (.literal line v.value)
  | .list line items => do pure (.list line (← resolveItems items))
  | .anyOf line items => do pure (.anyOf line (← resolveItems items))
  | .allOf line items => do pure (.allOf line (← resolveItems items))
  | .binary line op a b => do
    let a ← a.resolve
    let b ← b.resolve
    pure (.binary line op a b)
  | .unary line op a => do pure (.unary line op (← a.resolve))
  | .variable line name => resolveName line name
  | .call _ name args named => do
    let args ← resolveItems args
    let named ← resolveNamed named
    match Function.ofName? name with
    | some fn => do pure (.call (← ResolveM.fresh) name fn args named)
    | none => throw (.script (.functionNotFound name))
  | .choice line c y none inline => do
    let c ← c.resolve
    let y ← ResolveM.inScope y.resolve
    pure (.choice line (← ResolveM.fresh) c y none inline)
  | .choice line c y (some e) inline => do
    let c ← c.resolve
    let y ← ResolveM.inScope y.resolve
    let e ← ResolveM.inScope e.resolve
    pure (.choice line (← ResolveM.fresh) c y (some e) inline)
  | .loop line counterLine counter first l b => ResolveM.inScope do
    let first ← first.resolve
    let id ← resolveDefine counterLine counter first
    let l ← l.resolve
    let b ← b.resolve
    pure (.loop line counterLine id counter first l b)
  | .function _ _ _ _ => throw .unimplemented
  | .define line name e => do
    let e ← e.resolve
    let id ← resolveDefine line name e
    pure (.define line id name e)
  | .assign line name e => do
    let e ← e.resolve
    let target ← resolveTarget name
    pure (.assign line name target e)
  | .inlined name params args body => ResolveM.inScope do
    let args ← resolveItems args
    let body ← body.resolve
    pure (.inlined name params args body)
  | .empty => throw .member
  | .word _ => throw .member

/-- The trees in a row, each seeing the definitions before it. -/
def resolveItems : List Tree → ResolveM (List Code)
  | [] => pure []
  | t :: rest => do
    let t ← t.resolve
    let rest ← resolveItems rest
    pure (t :: rest)

def resolveNamed : List (String × Tree) → ResolveM (List (String × Code))
  | [] => pure []
  | (k, t) :: rest => do
    let t ← t.resolve
    let rest ← resolveNamed rest
    pure ((k, t) :: rest)

end

def compile (t : Tree) : Except Fault Program := do
  let (t, _) ← t.expand.run []
  let (r, s) := (t.resolve.run).run {}
  pure ⟨← r, s.mutable⟩

end Tree

/-- Compiles the text of a script. A text without statements is no script. -/
def compile (code : String) : Except Fault Program := do
  let some cs := Layout.prepare? code | .error .index
  match ← Parser.parse cs with
  | some t => t.compile
  | none => .error .member

def Program.empty : Program :=
  ⟨.block none [], []⟩

def Program.outline (p : Program) : Outline :=
  (p.code.outline p.mutable []).1

end PineEngine.Script
