import PineEngine.Script.Tree
import PineEngine.Text.Blank
import PineEngine.Value

/-! # Outlines of trees

A common view of trees: each node with its label, its arguments and its children. A definition that was
shown before is only named when it is met again.
-/

namespace PineEngine.Script

inductive Outline where
  /-- `key` tells definitions apart; `inline` the form of a choice. -/
  | node (label : String) (line : Line) (inline : Option Bool) (key : Option Nat)
      (args children : List Outline)
  | again (label : String) (key : Nat) (args : List Outline)
  | leaf (value : Value)
  | builtin (name : String)
  deriving Inhabited

def Outline.word (s : String) : Outline :=
  .leaf (.text s)

def Literal.value : Literal → Value
  | .int n => .int n
  | .float x => .float x
  | .bool b => .bool b
  | .text s => .text s

/-- The parameters of a function: one name as it is, several in a node of their own. -/
def paramsOutline : List String → Outline
  | [p] => .word p
  | ps => .node "Node" (some 0) none none [] (ps.map Outline.word)

def defineOutline (line : Line) (n : Nat) (name : String) (expr : Outline) : Outline :=
  .node "VarDefNode" line none (some n) [.word name, .leaf (.bool false), .leaf .absent] [expr]

mutual

def Tree.outline (n : Nat) : Tree → Outline × Nat
  | .block line items =>
    let (cs, n) := outlines n items
    (.node "Node" line none none [] cs, n)
  | .literal line v => (.node "LiteralNode" line none none [.leaf v.value] [], n)
  | .list line items =>
    let (cs, n) := outlines n items
    (.node "LiteralNode" line none none [] cs, n)
  | .anyOf line items =>
    let (cs, n) := outlines n items
    (.node "OrNode" line none none [] cs, n)
  | .allOf line items =>
    let (cs, n) := outlines n items
    (.node "AndNode" line none none [] cs, n)
  | .binary line op a b =>
    let (a, n) := a.outline n
    let (b, n) := b.outline n
    (.node "BinOpNode" line none none [.word op.text] [a, b], n)
  | .unary line op a =>
    let (a, n) := a.outline n
    (.node "UniOpNode" line none none [.word op.text] [a], n)
  | .variable line name => (.node "VarRefNode" line none none [.word name] [], n)
  | .call line name args named =>
    let (args, n) := outlines n args
    let (named, n) := namedOutlines n named
    (.node "FunCallNode" line none none [.word name]
      [.node "Node" none none none [] args,
       .node "KwArgsNode" none none none (named.map (Outline.word ·.1)) (named.map (·.2))], n)
  | .choice line c y none inline =>
    let (c, n) := c.outline n
    let (y, n) := y.outline n
    (.node "IfNode" line (some inline) none [] [c, y], n)
  | .choice line c y (some e) inline =>
    let (c, n) := c.outline n
    let (y, n) := y.outline n
    let (e, n) := e.outline n
    (.node "IfNode" line (some inline) none [] [c, y, e], n)
  | .loop line counterLine counter first l b =>
    let (e, m) := first.outline (n + 1)
    let (l, m) := l.outline m
    let (b, m) := b.outline m
    (.node "ForNode" line none none [] [defineOutline counterLine n counter e, l, b], m)
  | .function line name params body =>
    let (body, n) := body.outline n
    (.node "FunDefNode" line none none [.word name, paramsOutline params] [body], n)
  | .define line name e =>
    let (e, m) := e.outline (n + 1)
    (defineOutline line n name e, m)
  | .assign line name e =>
    let (e, n) := e.outline n
    (.node "VarAssignNode" line none none [.word name] [e], n)
  | .inlined name params args body =>
    let (args, n) := outlines n args
    let (body, n) := body.outline n
    (.node "UserFuncCallNode" none none none
      [.word name, .leaf (.list (params.map Value.text))]
      [.node "Node" none none none [] args, body], n)
  | .empty => (.leaf .absent, n)
  | .word s => (.word s, n)

def outlines (n : Nat) : List Tree → List Outline × Nat
  | [] => ([], n)
  | t :: rest =>
    let (t, n) := t.outline n
    let (rest, n) := outlines n rest
    (t :: rest, n)

def namedOutlines (n : Nat) : List (String × Tree) → List (String × Outline) × Nat
  | [] => ([], n)
  | (k, t) :: rest =>
    let (t, n) := t.outline n
    let (rest, n) := namedOutlines n rest
    ((k, t) :: rest, n)

end

namespace Outline

/-- A text that stands below another: each of its lines two columns further right. -/
def indented (s : String) : List String :=
  (Text.lines s.toList).map fun l => "  " ++ String.ofList l

mutual

/-- The outline as text. `fresh` is false when the parameters of a function were printed before. -/
def text (fresh : Bool) : Outline → String
  | .node label _ _ _ args children =>
    let head := label ++ ": " ++ String.intercalate ", " (argTexts fresh args)
    String.intercalate "\n" (head :: childLines fresh children)
  | .again label _ args => label ++ ": " ++ String.intercalate ", " (argTexts fresh args) ++ " ..."
  | .leaf v => v.printed
  | .builtin name => "<function " ++ name ++ ">"

def argTexts (fresh : Bool) : List Outline → List String
  | [] => []
  | .node label line inline key args children :: rest =>
    let shown :=
      if fresh then (Outline.node label line inline key args children).text fresh
      else label ++ ": " ++ " ..."
    shown :: argTexts fresh rest
  | a :: rest => a.text fresh :: argTexts fresh rest

def childLines (fresh : Bool) : List Outline → List String
  | [] => []
  | c :: rest => indented (c.text fresh) ++ childLines fresh rest

end

mutual

/-- Whether all nodes of the outline are nodes, so that it can be printed as a whole. -/
def complete : Outline → Bool
  | .node _ _ _ _ _ children => allComplete children
  | .again _ _ _ => true
  | .leaf _ => false
  | .builtin _ => false

def allComplete : List Outline → Bool
  | [] => true
  | c :: rest => c.complete && allComplete rest

end

/-- The first line of a node that was printed before. -/
def headAgain : Outline → String
  | .node label _ _ _ args _ => label ++ ": " ++ String.intercalate ", " (argTexts false args) ++ " ..."
  | o => o.text false

/-- What printing the outline `times` times shows, and the line that names it once more. Only complete
    outlines can be printed. -/
def dump? (o : Outline) (times : Nat) : Option (String × String) :=
  if o.complete then
    let once (i : Nat) : String := o.text (i == 0) ++ "\n"
    some (String.join ((List.range times).map once), if times == 0 then o.text true else o.headAgain)
  else none

end Outline

end PineEngine.Script
