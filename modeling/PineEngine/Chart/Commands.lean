import PineEngine.Chart.Canvas

/-! # Commands

Everything that can be asked of a chart, with the parameters of each command and their defaults. Arguments
are given in order or by name.
-/

namespace PineEngine.Chart

def needed (name : String) : String × Option Value := (name, none)

def optional (name : String) (default : Value) : String × Option Value := (name, some default)

def onMain : String × Option Value := optional "ax" (.int 0)

def unnamed : String × Option Value := optional "name" (.text "")

inductive Command where
  | reset
  | clear
  | addPane
  | setFrame
  | setRows
  | addLine
  | addLevel
  | addUpright
  | addBand
  | addBar
  | addMark
  | addCandles
  | addBoard
  | create
  deriving DecidableEq, Repr

namespace Command

def parameters : Command → List (String × Option Value)
  | reset | clear => []
  | addPane => [optional "ax" (.int 1), optional "label" (.text "y"), optional "grid" (.bool true)]
  | setFrame => []
  | setRows => [needed "lst_ohlcv"]
  | addLine => [needed "lst_utime", needed "lst_plot", onMain, optional "color" (.text "black"),
      optional "width" (.float 1.0), unnamed]
  | addLevel => [needed "plot", onMain, optional "color" (.text "black"), optional "width" (.float 1.0), unnamed]
  | addUpright => [needed "utime", onMain, optional "color" (.text "black"), optional "width" (.float 1.0),
      unnamed]
  | addBand => [needed "lst_utime", needed "lst_plot1", needed "lst_plot2", onMain,
      optional "up_color" (.text "blue"), optional "down_color" (.text "red"), optional "alpha" (.float 0.5),
      optional "edge_width" (.float 0.5), optional "edge_color" (.text "black"), unnamed]
  | addBar => [needed "lst_utime", needed "lst_plot", onMain, optional "color" (.text "red"), unnamed]
  | addMark => [needed "lst_utime", needed "lst_plot", onMain, optional "color" (.text "black"),
      optional "size" (.float 20.0), optional "mark" (.text "*"), unnamed, optional "text" (.text "")]
  | addCandles => [optional "ax" (.int 1), optional "vol_bar" (.bool true)]
  | addBoard => [needed "lst_utime", needed "lst_bids", needed "lst_asks", onMain,
      optional "line_width" (.float 1.0), optional "hover_count" (.int 20),
      optional "highlight_size" (.int 1000000), optional "bid_line_color" (.text "blue"),
      optional "ask_line_color" (.text "red"), optional "bid_hover_color" (.text "lightcyan"),
      optional "ask_hover_color" (.text "lavenderblush"), optional "highlight_color" (.text "red")]
  | create => [needed "path", optional "chart_mode" (.text "png")]

end Command

structure Outcome where
  calls : List Call := []
  result : Except Fault Picture := .ok .none

def run (c : Command) (frame : Option Frame) (args : List Value) (named : Fields) : ChartM Outcome := do
  let takesFrame := c == .setFrame || c == .addCandles
  if takesFrame && frame.isNone then throw .member
  let done (m : ChartM Unit) : ChartM Outcome := do
    m
    pure {}
  match c, ← bindArguments c.parameters args named with
  | .reset, [] => done (set blank)
  | .clear, [] => done (modify clear)
  | .addPane, [n, label, grid] => done (addPane n label grid)
  | .setFrame, [] => done (setFrame (frame.getD []))
  | .setRows, [rows] => done (setRows rows)
  | .addLine, [t, y, n, color, width, name] => done (addLine t y n color width name)
  | .addLevel, [y, n, color, width, name] => done (addLevel y n color width name)
  | .addUpright, [t, n, color, width, name] => done (addUpright t n color width name)
  | .addBand, [t, y, z, n, up, down, alpha, width, color, name] =>
    done (addBand t y z n up down alpha width color name)
  | .addBar, [t, y, n, color, name] => done (addBar t y n color name)
  | .addMark, [t, y, n, color, size, mark, name, text] => done (addMark t y n color size mark name text)
  | .addCandles, [n, volumeBar] => done (addCandles (frame.getD []) n volumeBar)
  | .addBoard, [t, bids, asks, n, width, count, least, bc, ac, bh, ah, emphasis] =>
    done (addBoard t bids asks n count ⟨least, emphasis⟩ ⟨width, bc, ac, bh, ah⟩)
  | .create, [path, mode] => do
    let (calls, result) ← create path mode
    pure ⟨calls, result⟩
  | _, _ => throw .operands

end PineEngine.Chart
