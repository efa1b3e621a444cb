import PineEngine.Script.Literal

/-! # The syntax tree

What the tokens of a script say. Each node knows the line it comes from, if one token tells it.
-/

namespace PineEngine.Script

/-- Operators between two operands. `index` looks back by a number of bars. -/
inductive BinaryOp where
  | eq | neq | gt | ge | lt | le | add | sub | mul | div | mod | index
  deriving DecidableEq, Repr

inductive UnaryOp where
  | not | plus | minus
  deriving DecidableEq, Repr

def BinaryOp.text : BinaryOp → String
  | eq => "==" | neq => "!=" | gt => ">" | ge => ">=" | lt => "<" | le => "<="
  | add => "+" | sub => "-" | mul => "*" | div => "/" | mod => "%" | index => "["

def UnaryOp.text : UnaryOp → String
  | not => "not" | plus => "+" | minus => "-"

abbrev Line := Option Nat

inductive Tree where
  | block (line : Line) (items : List Tree)
  | literal (line : Line) (value : Literal)
  | list (line : Line) (items : List Tree)
  | anyOf (line : Line) (items : List Tree)
  | allOf (line : Line) (items : List Tree)
  | binary (line : Line) (op : BinaryOp) (left right : Tree)
  | unary (line : Line) (op : UnaryOp) (operand : Tree)
  | variable (line : Line) (name : String)
  | call (line : Line) (name : String) (args : List Tree) (named : List (String × Tree))
  /-- A choice; `inline` tells the operator form from the block form. -/
  | choice (line : Line) (cond yes : Tree) (no : Option Tree) (inline : Bool)
  /-- A counting loop: the definition of the counter by its first value, its last value, the body. -/
  | loop (line counterLine : Line) (counter : String) (first last body : Tree)
  | function (line : Line) (name : String) (params : List String) (body : Tree)
  | define (line : Line) (name : String) (expr : Tree)
  | assign (line : Line) (name : String) (expr : Tree)
  /-- A call of a function of the script, with its body in place: definitions of the parameters, then
      the body. The parser makes none of these. -/
  | inlined (name : String) (params : List String) (args : List Tree) (body : Tree)
  | empty
  | word (text : String)
  deriving Inhabited

end PineEngine.Script
