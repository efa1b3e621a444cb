/-! # Built-in functions

The functions that every script can call, by name, and the role that a call of them plays: some calls
describe the script, ask for an input, give an order or draw, and are collected when a script is loaded.
-/

namespace PineEngine.Builtin

inductive Function where
  | study | strategy
  | input
  | security
  | close
  | closeAll
  | entry
  /-- A kind of order that is known but not available. -/
  | order
  | plot | plotshape | hline | fill
  | drawing
  | abs | barssince | bgcolor | color | cross | crossover | crossunder
  | ema | sma | wma
  | highest | lowest
  | linreg | stdev | stoch | rsi
  | max | min | na | nz | offset | pivothigh | pivotlow | rma | timestamp | valuewhen
  | unavailable
  deriving DecidableEq, Repr

inductive Role where
  | header
  | input
  | security
  | order
  | drawing
  | plain
  deriving DecidableEq, Repr

namespace Function

def available : List (String × Function) :=
  [("study", study), ("strategy", strategy), ("input", input), ("security", security),
   ("strategy.close", close), ("strategy.close_all", closeAll), ("strategy.entry", entry),
   ("plot", plot), ("plotshape", plotshape), ("hline", hline), ("fill", fill),
   ("plotarrow", drawing), ("plotbar", drawing), ("plotcandle", drawing), ("plotchar", drawing),
   ("plotfigure", drawing),
   ("abs", abs), ("barssince", barssince), ("bgcolor", bgcolor), ("color", color), ("cross", cross),
   ("crossover", crossover), ("crossunder", crossunder), ("ema", ema), ("sma", sma),
   ("wma", wma), ("highest", highest), ("lowest", lowest), ("linreg", linreg), ("stdev", stdev),
   ("stoch", stoch), ("rsi", rsi), ("max", max), ("min", min), ("na", na), ("nz", nz),
   ("offset", offset), ("pivothigh", pivothigh), ("pivotlow", pivotlow), ("rma", rma),
   ("timestamp", timestamp), ("valuewhen", valuewhen)]

def missingOrders : List String :=
  ["strategy.cancel", "strategy.cancel_all", "strategy.exit", "strategy.order"]

def missing : List String :=
  ["acos", "alertcondition", "alma", "asin", "atan", "atr", "avg", "barcolor", "cci", "ceil", "change",
   "cog", "correlation", "cos", "cum", "dayofmonth", "dayofweek", "dev", "exp", "falling", "fixnan",
   "floor", "heikinashi", "highestbars", "hour", "iff", "kagi", "linebreak", "log", "log10", "lowestbars",
   "macd", "minute", "mom", "month", "precentile_linear_interpolation", "precentile_nearest_rank",
   "percentrank", "pow", "renko", "rising", "roc", "round", "sar", "second", "sign", "sin", "sqrt",
   "strategy.risk.allow_entry_in", "strategy.risk.max_cons_loss_days", "strategy.risk.max_drawdown",
   "strategy.risk.max_intraday_filled_orders", "strategy.risk.max_intraday_loss",
   "strategy.risk.max_position_size", "sum", "swma", "tan", "tickerid", "time", "tostring", "tr", "tsi",
   "variance", "vwap", "vwma", "weekofyear", "year"]

def all : List (String × Function) :=
  available ++ missingOrders.map (·, order) ++ missing.map (·, unavailable)

def ofName? (name : String) : Option Function :=
  all.lookup name

def role : Function → Role
  | study | strategy => .header
  | input => .input
  | security => .security
  | close | closeAll | entry | order => .order
  | plot | plotshape | hline | fill | drawing => .drawing
  | _ => .plain

end Function

end PineEngine.Builtin
