import PineEngine.Exchange.Value
import PineEngine.Script.Resolve

/-! # Scripts for other programs

Tokens, trees and what is known of a script, as JSON.
-/

namespace PineEngine.Exchange

open Script

def token (t : Token) : Json :=
  .arr [.str t.kind.label, plain t.value.value, .int t.line, .int t.pos]

mutual

def outline : Outline → Json
  | .node label line inline key args children =>
    .obj ([("n", .str label)] ++
      (if args.isEmpty then [] else [("a", .arr (outlines args))]) ++
      (match line with | some l => [("l", Json.int l)] | none => []) ++
      (if children.isEmpty then [] else [("c", .arr (outlines children))]) ++
      (match inline with | some b => [("expr", Json.bool b)] | none => []) ++
      (match key with | some k => [("id", Json.int k)] | none => []))
  | .again _ key _ => .obj [("ref", .int key)]
  | .leaf v => plain v
  | .builtin name => .obj [("fn", .str name)]

def outlines : List Outline → List Json
  | [] => []
  | o :: rest => outline o :: outlines rest

end

def callName : Code → Json
  | .call _ name _ _ _ => .str name
  | _ => .null

def program (p : Program) : Json :=
  let a := p.code.annotations
  .obj [("tree", outline p.outline), ("meta", (a.header.map callName).getD .null),
    ("inputs", .int a.inputs.length), ("securities", .int a.securities.length),
    ("strategies", .arr (a.orders.map callName)), ("plots", .arr (a.drawings.map callName))]

end PineEngine.Exchange
