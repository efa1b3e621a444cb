import PineEngine.Store

/-! # Built-in variables

The names that every script can use. Most of them are constants; the others tell about the bar, the
market or the orders. `Variable.folded?` is what the compiler puts in place of a name, `none` if the name
has to be asked for at every bar.
-/

namespace PineEngine.Builtin

inductive ClockPart where
  | hour | minute | second
  deriving DecidableEq, Repr

inductive Variable where
  | constant (value : Value)
  | clock (part : ClockPart)
  | mintick
  | source (s : Source)
  | period
  | tickerId
  | positionSize
  | trueRange
  | unavailable

namespace Variable

def colors : List (String × String) :=
  [("aqua", "#00FFFF"), ("black", "#000000"), ("blue", "#0000FF"), ("fuchsia", "#FF00FF"),
   ("gray", "#808080"), ("green", "#008000"), ("lime", "#00ff00"), ("maroon", "#800000"),
   ("navy", "#000080"), ("olive", "#808000"), ("orange", "#ff7f00"), ("purple", "#800080"),
   ("red", "#ff0000"), ("silver", "#c0c0c0"), ("teal", "#008080"), ("white", "#000000"),
   ("yellow", "#ffff00")]

def styles : List (String × Nat) :=
  [("line", 0), ("stepline", 1), ("histogram", 2), ("cross", 3), ("area", 4), ("columns", 5),
   ("circles", 6), ("areabr", 0), ("linebr", 0), ("dashed", 0), ("dotted", 0), ("solid", 0),
   ("scale.left", 0), ("scale.none", 0), ("scale.right", 0)]

def switches : List (String × Bool) :=
  [("barmerge.gaps_off", false), ("barmerge.gaps_on", true), ("barmerge.lookahead_off", false),
   ("barmerge.lookahead_on", true), ("strategy.long", true), ("strategy.short", false)]

/-- Words: a group, and the names in it. The value of such a constant is its name in the group. -/
def words : List (String × List String) :=
  [("", ["bool", "float", "integer", "resolution", "source", "string", "symbol"]),
   ("currency.", ["USD"]),
   ("location.", ["abovebar", "absolute", "belowbar", "bottom", "top"]),
   ("shape.", ["arrowdown", "arrowup", "circle", "cross", "diamond", "flag", "labeldown", "labelup",
     "square", "triangledown", "triangleup", "xcross"]),
   ("size.", ["auto", "huge", "large", "normal", "small", "tiny"]),
   ("strategy.", ["cash", "fixed", "percent_of_equity"]),
   ("strategy.commission.", ["cash_per_contract", "cash_per_order", "percent"])]

def currencies : List String :=
  ["AUD", "CAD", "CHF", "EUR", "GBP", "HKD", "JPY", "NOK", "NONE", "NZD", "RUB", "SKE", "SGD", "TRY", "ZAR"]

def live : List (String × Variable) :=
  [("hour", .clock .hour), ("minute", .clock .minute), ("second", .clock .second),
   ("syminfo.mintick", .mintick), ("period", .period), ("tickerid", .tickerId),
   ("strategy.position_size", .positionSize), ("tr", .trueRange)]

def missing : List String :=
  ["accdist", "adjustment.dividends", "adjustment.none", "adjustment.splits", "barstate.isconfirmed",
   "barstate.isfirst", "barstate.ishistory", "barstate.islast", "barstate.isnew", "barstate.isrealtime",
   "dayofmonth", "dayofweek", "friday", "interval", "isdaily", "isdwm", "isintraday", "ismonthly",
   "isweekly", "monday", "month", "n", "saturday", "session", "session.extended", "session.regular",
   "strategy.closedtrades", "strategy.direction_all", "strategy.direction_long",
   "strategy.direction_short", "strategy.equity", "strategy.eventrades", "strategy.grossloss",
   "strategy.grossprofit", "strategy.initial_capital", "strategy.losstrades",
   "strategy.max_contracts_held_all", "strategy.max_contracts_held_long", "strategy.max_drawdown",
   "strategy.netprofit", "strategy.oca.cancel", "strategy.oca.none", "strategy.oca.reduce",
   "strategy.openprofit", "strategy.opentrades", "strategy.position_avg_price",
   "strategy.position_entry_name", "strategy.wintrades", "sunday", "syminfo.pointvalue",
   "syminfo.prefix", "syminfo.root", "syminfo.session", "syminfo.timezone", "thursday", "ticker",
   "timenow", "tuesday", "volume", "vwap", "wednesday", "weekofyear", "year"]

def all : List (String × Variable) :=
  colors.map (fun (n, c) => (n, .constant (.text c)))
    ++ styles.map (fun (n, k) => (n, .constant (.int k)))
    ++ switches.map (fun (n, b) => (n, .constant (.bool b)))
    ++ words.flatMap (fun (group, names) => names.map fun n => (group ++ n, .constant (.text n)))
    ++ currencies.map (fun n => ("currency." ++ n, .constant .unsupported))
    ++ [("na", .constant (.float notANumber))]
    ++ (Source.time :: Source.offered).map (fun s => (s.label, .source s))
    ++ live
    ++ missing.map (fun n => (n, .unavailable))

def ofName? (name : String) : Option Variable :=
  all.lookup name

/-- The value that stands for a variable at every bar. The time of day and the least step of a price
    count as zero. -/
def folded? : Variable → Option Value
  | constant v => some v
  | clock _ => some (.int 0)
  | mintick => some (.float 0.0)
  | _ => none

/-- Whether the latest values of a variable can be asked for one by one. -/
def isSource : Variable → Bool
  | source _ => true
  | _ => false

end Variable

end PineEngine.Builtin
