import PineEngine.Candles.Archive
import PineEngine.Json
import PineEngine.Store

/-! # Values for other programs

JSON forms that keep all that tells values apart: doubles are texts under a tag, so that they read back
exactly and stay apart from whole numbers; tables and series have tags of their own. Where only tables and
lists of numbers can stand, tables are written without a tag.
-/

namespace PineEngine.Exchange

def float (x : Float) : Json :=
  .obj [("f", .str (Decimal.floatText x .exchange))]

def cell : Cell → Json
  | .bool b => .bool b
  | .int _ n => .int n
  | .float x => float x
  | .text s => .str s

def kind : Kind → Json
  | .text _ => .str "str"
  | k => .str k.label

mutual

def valueWith (tagged : Bool) (series : SeriesRef → Json) : Value → Json
  | .absent => .null
  | .bool b => .bool b
  | .int n => .int n
  | .float x => float x
  | .text t => .str t
  | .list items => .arr (valuesWith tagged series items)
  | .dict fields =>
    let table := Json.obj (fieldsWith tagged series fields)
    if tagged then .obj [("map", table)] else table
  | .cell c => cell c
  | .series r => series r
  | .definition _ => .obj [("node", .str "VarDefNode")]
  | .unsupported => .obj [("class", .str "NotImplementedError")]

def valuesWith (tagged : Bool) (series : SeriesRef → Json) : List Value → List Json
  | [] => []
  | v :: rest => valueWith tagged series v :: valuesWith tagged series rest

def fieldsWith (tagged : Bool) (series : SeriesRef → Json) : List (String × Value) → List (String × Json)
  | [] => []
  | (k, v) :: rest => (k, valueWith tagged series v) :: fieldsWith tagged series rest

end

def columnWith (entry : Value → Json) (c : Column) (more : List (String × Json)) : Json :=
  let cells := c.cells.toList.map entry
  let wrap (entries : List Json) (more : List (String × Json)) : Json :=
    .obj [("series", .obj ([("dtype", kind c.cells.kind), ("v", .arr entries)] ++ more))]
  match c.rowLen with
  | none => wrap cells more
  | some n => wrap ((List.range c.length).map fun k => wrap ((cells.drop (k * n)).take n) []) more

def series (s : Store) : Nat → SeriesRef → Json
  | 0, _ => .null
  | depth + 1, r =>
    columnWith (valueWith true (series s depth)) (s.column r) [("valid", .int (s.valid r))]

def value (s : Store) : Value → Json :=
  valueWith true (series s 8)

def table (s : Store) (fields : Fields) : Json :=
  value s (.dict fields)

def plain : Value → Json :=
  value {}

def untagged : Value → Json :=
  valueWith false fun _ => .null

mutual

def json : Json → Json
  | .float x => float x
  | .arr items => .arr (jsonItems items)
  | .obj fields => .obj (jsonFields fields)
  | j => j

def jsonItems : List Json → List Json
  | [] => []
  | j :: rest => json j :: jsonItems rest

def jsonFields : List (String × Json) → List (String × Json)
  | [] => []
  | (k, j) :: rest => (k, json j) :: jsonFields rest

end

def candles (c : Candles) : Json :=
  .obj (c.toFields.map fun (k, v) => (k, plain v))

def key : Value → String
  | .text s => s
  | v => v.printed

def archive (a : Archive) : Json :=
  .obj (a.map fun (r, c) => (key r, candles c))

end PineEngine.Exchange
