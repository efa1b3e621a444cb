import PineEngine.Builtin.Function
import PineEngine.Builtin.Variable
import PineEngine.Script.Outline

/-! # Compiled scripts

Code is a tree in which every name is settled. A reference to a variable carries the definition that it
means, and so does an assignment; calls of functions of the script stand as their bodies. Definitions,
choices, built-in variables and built-in calls carry a number of their own, under which the machine keeps
what belongs to them.

`Code.annotations` lists the calls that have a role beyond their value, in the order in which they are
first met.
-/

namespace PineEngine.Script

open Builtin

inductive Code where
  | block (line : Line) (items : List Code)
  | literal (line : Line) (value : Value)
  | list (line : Line) (items : List Code)
  | anyOf (line : Line) (items : List Code)
  | allOf (line : Line) (items : List Code)
  | binary (line : Line) (op : BinaryOp) (left right : Code)
  | unary (line : Line) (op : UnaryOp) (operand : Code)
  | builtin (line : Line) (id : Nat) (name : String) (var : Variable)
  | variable (line : Line) (name : String) (target : Code)
  | call (id : Nat) (name : String) (fn : Function) (args : List Code) (named : List (String × Code))
  | choice (line : Line) (id : Nat) (cond yes : Code) (no : Option Code) (inline : Bool)
  | loop (line counterLine : Line) (id : Nat) (counter : String) (first last body : Code)
  | define (line : Line) (id : Nat) (name : String) (expr : Code)
  | assign (line : Line) (name : String) (target expr : Code)
  /-- A call of a function of the script: definitions of its parameters, then its body. -/
  | inlined (name : String) (params : List String) (args : List Code) (body : Code)
  deriving Inhabited

/-- A compiled script: its code, and the definitions that some assignment changes. -/
structure Program where
  code : Code
  mutable : List Nat
  deriving Inhabited

def roleLabel : Role → String
  | .header => "MetaInfoFuncNode"
  | .input => "InputFuncNode"
  | .security => "SecurityFuncNode"
  | .order => "StrategyFuncNode"
  | .drawing => "PlotFuncNode"
  | .plain => "BuiltinFunCallNode"

def outlineName (name : String) : String :=
  name.replace "." "__"

namespace Code

def id? : Code → Option Nat
  | builtin _ id _ _ => some id
  | call id _ _ _ _ => some id
  | choice _ id _ _ _ _ => some id
  | define _ id _ _ => some id
  | _ => none

def line : Code → Line
  | .block l _ | .literal l _ | .list l _ | .anyOf l _ | .allOf l _ | .binary l _ _ _ | .unary l _ _
  | .builtin l _ _ _ | .variable l _ _ | .choice l _ _ _ _ _ | .loop l _ _ _ _ _ _ | .define l _ _ _
  | .assign l _ _ _ => l
  | .call _ _ _ _ _ | .inlined _ _ _ _ => none

/-- The name of what the machine keeps for a node, if it has one. -/
def name? : Code → Option String
  | builtin _ _ n _ => some n
  | define _ _ n _ => some n
  | _ => none

def label : Code → String
  | builtin _ _ _ _ => "BuiltinVarRefNode"
  | choice _ _ _ _ _ _ => "IfNode"
  | _ => "VarDefNode"

def definitionArgs (mutable : List Nat) (id : Nat) (name : String) : List Outline :=
  [.word name, .leaf (.bool (mutable.contains id)), .leaf .absent]

/-- The outline of a definition, given that of its expression. It is shown in full only once. -/
def outlineDefine (mutable seen : List Nat) (line : Line) (id : Nat) (name : String)
    (expr : List Nat → Outline × List Nat) : Outline × List Nat :=
  let args := definitionArgs mutable id name
  match seen.idxOf? id with
  | some k => (.again "VarDefNode" k args, seen)
  | none =>
    let k := seen.length
    let (e, seen) := expr (seen ++ [id])
    (.node "VarDefNode" line none (some k) args [e], seen)

mutual

/-- The outline of code. `seen` are the definitions that were shown before, in their order. -/
def outline (mutable seen : List Nat) : Code → Outline × List Nat
  | .block line items =>
    let (cs, seen) := outlineAll mutable seen items
    (.node "Node" line none none [] cs, seen)
  | .literal line v => (.node "LiteralNode" line none none [.leaf v] [], seen)
  | .list line items =>
    let (cs, seen) := outlineAll mutable seen items
    (.node "LiteralNode" line none none [] cs, seen)
  | .anyOf line items =>
    let (cs, seen) := outlineAll mutable seen items
    (.node "OrNode" line none none [] cs, seen)
  | .allOf line items =>
    let (cs, seen) := outlineAll mutable seen items
    (.node "AndNode" line none none [] cs, seen)
  | .binary line op a b =>
    let (a, seen) := a.outline mutable seen
    let (b, seen) := b.outline mutable seen
    (.node "BinOpNode" line none none [.word op.text] [a, b], seen)
  | .unary line op a =>
    let (a, seen) := a.outline mutable seen
    (.node "UniOpNode" line none none [.word op.text] [a], seen)
  | .builtin line _ name _ =>
    (.node "BuiltinVarRefNode" line none none [.word name, .builtin (outlineName name)] [], seen)
  | .variable line name target =>
    let (t, seen) := target.outline mutable seen
    (.node "VarRefNode" line none none [.word name] [t], seen)
  | .call _ name fn args named =>
    let (args, seen) := outlineAll mutable seen args
    let (named, seen) := outlineNamed mutable seen named
    (.node (roleLabel fn.role) none none none [.word name]
      [.node "Node" none none none [] args,
       .node "KwArgsNode" none none none (named.map (Outline.word ·.1)) (named.map (·.2))], seen)
  | .choice line _ c y none inline =>
    let (c, seen) := c.outline mutable seen
    let (y, seen) := y.outline mutable seen
    (.node "IfNode" line (some inline) none [] [c, y], seen)
  | .choice line _ c y (some e) inline =>
    let (c, seen) := c.outline mutable seen
    let (y, seen) := y.outline mutable seen
    let (e, seen) := e.outline mutable seen
    (.node "IfNode" line (some inline) none [] [c, y, e], seen)
  | .loop line counterLine id name first l b =>
    let (c, seen) := outlineDefine mutable seen counterLine id name (first.outline mutable)
    let (l, seen) := l.outline mutable seen
    let (b, seen) := b.outline mutable seen
    (.node "ForNode" line none none [] [c, l, b], seen)
  | .define line id name e => outlineDefine mutable seen line id name (e.outline mutable)
  | .assign line name target e =>
    let (t, seen) := target.outline mutable seen
    let (e, seen) := e.outline mutable seen
    (.node "VarAssignNode" line none none [.word name] [t, e], seen)
  | .inlined name params args body =>
    let (args, seen) := outlineAll mutable seen args
    let (body, seen) := body.outline mutable seen
    (.node "UserFuncCallNode" none none none
      [.word name, .leaf (.list (params.map Value.text))]
      [.node "Node" none none none [] args, body], seen)

def outlineAll (mutable seen : List Nat) : List Code → List Outline × List Nat
  | [] => ([], seen)
  | c :: rest =>
    let (c, seen) := c.outline mutable seen
    let (rest, seen) := outlineAll mutable seen rest
    (c :: rest, seen)

def outlineNamed (mutable seen : List Nat) : List (String × Code) → List (String × Outline) × List Nat
  | [] => ([], seen)
  | (k, c) :: rest =>
    let (c, seen) := c.outline mutable seen
    let (rest, seen) := outlineNamed mutable seen rest
    ((k, c) :: rest, seen)

end

end Code

structure Annotations where
  /-- The last call that describes the script. -/
  header : Option Code := none
  inputs : List Code := []
  securities : List Code := []
  orders : List Code := []
  drawings : List Code := []

namespace Annotations

def addOnce (calls : List Code) (c : Code) : List Code :=
  if calls.any (·.id? == c.id?) then calls else calls ++ [c]

def note (a : Annotations) (c : Code) : Role → Annotations
  | .header => { a with header := some c }
  | .input => { a with inputs := addOnce a.inputs c }
  | .security => { a with securities := addOnce a.securities c }
  | .order => { a with orders := addOnce a.orders c }
  | .drawing => { a with drawings := addOnce a.drawings c }
  | .plain => a

end Annotations

namespace Code

mutual

/-- Adds the calls in code. The arguments of a call that has a role are not looked into. -/
def annotate (a : Annotations) : Code → Annotations
  | .block _ items | .list _ items | .anyOf _ items | .allOf _ items => annotateAll a items
  | .literal _ _ => a
  | .binary _ _ l r => r.annotate (l.annotate a)
  | .unary _ _ e => e.annotate a
  | .builtin _ _ _ _ => a
  | .variable _ _ target => target.annotate a
  | .call id name fn args named =>
    if fn.role == .plain then annotateNamed (annotateAll a args) named
    else a.note (.call id name fn args named) fn.role
  | .choice _ _ c y none _ => y.annotate (c.annotate a)
  | .choice _ _ c y (some e) _ => e.annotate (y.annotate (c.annotate a))
  | .loop _ _ _ _ e l b => b.annotate (l.annotate (e.annotate a))
  | .define _ _ _ e => e.annotate a
  | .assign _ _ target e => e.annotate (target.annotate a)
  | .inlined _ _ args body => body.annotate (annotateAll a args)

def annotateAll (a : Annotations) : List Code → Annotations
  | [] => a
  | c :: rest => annotateAll (c.annotate a) rest

def annotateNamed (a : Annotations) : List (String × Code) → Annotations
  | [] => a
  | (_, c) :: rest => annotateNamed (c.annotate a) rest

end

def annotations (c : Code) : Annotations :=
  c.annotate {}

end Code

end PineEngine.Script
