import PineEngine.Builtin.Function
import PineEngine.Builtin.Signature

/-! # Parameters of the built-in functions -/

namespace PineEngine.Builtin

def needed (name : String) (kind : Option ArgKind) : Parameter :=
  ⟨name, kind, true⟩

def optional (name : String) (kind : Option ArgKind) : Parameter :=
  ⟨name, kind, false⟩

def dateParts : Signature :=
  ["year", "month", "day", "hour", "minute"].map (needed · (some .int))

def zonedDateParts : Signature :=
  optional "timezone" (some .text) :: dateParts

/-- The length alone, for functions that know their source. -/
def lengthOnly : Signature :=
  [needed "length" (some .int)]

/-- The neighbourhood alone, for pivots of the prices. -/
def neighbourhood : Signature :=
  [needed "leftbars" (some .int), needed "rightbars" (some .int)]

def Function.signature : Function → Signature
  | .study =>
    [needed "title" (some .text), optional "shorttitle" (some .text), optional "overlay" (some .bool),
     optional "precision" (some .int), optional "scale" (some .int), optional "max_bars_back" (some .int),
     optional "linktoseries" (some .bool)]
  | .strategy =>
    [needed "title" (some .text), optional "shorttitle" (some .text), optional "overlay" (some .bool),
     optional "precision" (some .int), optional "scale" (some .int), optional "pyramiding" (some .int),
     optional "calc_on_order_fills" (some .bool), optional "calc_on_every_click" (some .bool),
     optional "max_bars_back" (some .int), optional "backtest_fill_limits_assumption" (some .int),
     optional "default_qty_type" (some .text), optional "default_qty_value" (some .float),
     optional "currency" (some .text), optional "linktoseries" (some .bool),
     optional "slippage" (some .int), optional "commision_type" (some .text),
     optional "commision_value" (some .float)]
  | .input =>
    [needed "defval" none, optional "title" (some .text), optional "type" (some .text),
     optional "minval" none, optional "maxval" none, optional "confirm" (some .bool),
     optional "step" none, optional "options" none]
  | .security =>
    [needed "symbol" (some .text), needed "resolution" (some .text), needed "security" (some .series),
     optional "gaps" (some .bool), optional "lookahead" (some .bool)]
  | .close => [needed "id" (some .text), optional "when" none]
  | .closeAll => [optional "when" none]
  | .entry =>
    [needed "id" (some .text), needed "long" (some .bool), optional "qty" (some .float),
     optional "limit" (some .float), optional "stop" (some .float), optional "oca_name" (some .text),
     optional "oca_type" (some .text), optional "comment" (some .text), optional "when" none]
  | .plot =>
    [needed "series" none, optional "title" (some .text), optional "color" none,
     optional "linewidth" (some .int), optional "style" (some .int), optional "trackprice" (some .bool),
     optional "transp" (some .int), optional "histbase" (some .float), optional "offset" (some .int),
     optional "editable" (some .bool), optional "show_last" (some .int)]
  | .plotshape =>
    [needed "series" none, optional "title" (some .text), optional "style" (some .text),
     optional "location" (some .text), optional "color" (some .text), optional "transp" (some .int),
     optional "offset" (some .int), optional "text" (some .text), optional "textcolor" (some .text),
     optional "join" (some .bool), optional "editable" (some .bool), optional "show_last" (some .int),
     optional "size" (some .text)]
  | .hline =>
    [needed "price" (some .float), optional "title" (some .text), optional "color" (some .text),
     optional "linestyle" (some .int), optional "linewidth" (some .int),
     optional "editable" (some .bool)]
  | .fill =>
    [needed "series1" (some .dict), needed "series2" (some .dict), optional "color" (some .text),
     optional "transp" (some .int), optional "title" (some .text), optional "editable" (some .bool),
     optional "show_last" (some .bool)]
  | .abs => [needed "source" none]
  | .barssince => [needed "condition" none]
  | .color => [needed "color" (some .text), needed "transp" (some .int)]
  | .cross | .crossover | .crossunder => [needed "x" (some .series), needed "y" none]
  | .ema | .sma | .wma | .highest | .lowest | .stdev | .rma =>
    [needed "source" (some .series), needed "length" (some .int)]
  | .linreg =>
    [needed "source" (some .series), needed "length" (some .int), needed "offset" (some .int)]
  | .stoch =>
    [needed "source" (some .series), needed "high" (some .series), needed "low" (some .series),
     needed "length" (some .int)]
  | .rsi => [needed "x" (some .series), needed "y" (some .int)]
  | .max | .min => [needed "x" none, needed "y" none]
  | .na => [needed "x" none]
  | .nz => [needed "x" none, optional "y" none]
  | .offset => [needed "source" (some .series), needed "offset" (some .int)]
  | .pivothigh | .pivotlow => needed "source" (some .series) :: neighbourhood
  | .timestamp => dateParts
  | .valuewhen =>
    [needed "condition" none, needed "source" (some .series), needed "occurrence" (some .int)]
  | .drawing | .bgcolor | .order | .unavailable => []

end PineEngine.Builtin
