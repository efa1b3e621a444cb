import PineEngine.Chart.Commands
import PineEngine.Exchange.Value

/-! # Charts for other programs

Charts, figures and the calls of a drawing, as JSON. Tables have no tag here.
-/

namespace PineEngine.Exchange

open Chart

def term : Term → Json
  | .value v => untagged v
  | .object name => .obj [("ref", .str name)]
  | .rows a b => .obj [("ref", .str ("gs[\x7b\"slice\": [" ++ toString a ++ ", " ++ toString b ++ "]\x7d, 0]"))]
  | .steps a b c => .obj [("range", .arr [.int a, .int b, .int c])]

def call (c : Call) : Json :=
  .arr [.str c.target, .arr (c.args.map term), .obj (c.named.map fun (k, t) => (k, term t))]

def figure (f : Figure) : Json :=
  untagged (.dict f.toFields)

def indicator (i : Indicator) : Json :=
  untagged (.dict i.toFields)

def chartFrame (c : Chart) : List (String × Json) :=
  [("ohlcv", untagged (Indicator.tableOf c.frame)), ("range", .arr ([c.start, c.stop, c.tick].map untagged))]

def panes (c : Chart) : List (String × Json) :=
  [("subcharts", .arr (c.panes.map fun (n, p) =>
    .arr [untagged n, .obj [("grid", untagged p.grid), ("label", untagged p.label)]]))]

end PineEngine.Exchange
