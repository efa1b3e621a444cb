import PineEngine.Json.Value
import PineEngine.Text.Markup

/-! # Pages

The pages of the workbench: a page to write a script on, a form for the inputs of a script, a page for what
went wrong, and a table of the exchanges that are supported.
-/

namespace PineEngine.Page

def ofLines (lines : List String) : String :=
  String.intercalate "\n" lines

def landing : String := ofLines
  ["<!doctype html>",
   "<html lang=\"ja\">",
   "    <head>",
   "        <title>Pine REPL</title>",
   "        <meta charset=\"UTF-8\">",
   "        <script src=\"https://code.jquery.com/jquery-3.3.1.min.js\"></script>",
   "        <script src=\"https://cdn.plot.ly/plotly-latest.min.js\"></script>",
   "    </head>",
   "",
   "    <body>",
   "        <h1>Pine REPL</h1>",
   "        <a href=\"./exchange-support\">Supported exchanges and markets</a>",
   "        <div id=\"pine-editor\">",
   "            <form id=\"pine-input\">",
   "                <textarea id=\"pine-code\" name=\"pine-code\" cols=\"80\" rows=\"10\"",
   "                          placeholder=\"Input Pine code\"></textarea>",
   "                <div style=\"padding-left: 16em\">",
   "                    <button type=\"button\">Load</button>",
   "                </div>",
   "            </form>",
   "        </div>",
   "        <div id=\"input-controller\">",
   "        </div>",
   "        <div id=\"result-viewer\">",
   "        </div>",
   "",
   "        <script type=\"text/javascript\">",
   "$(function() \x7b",
   "    $('#pine-input button').click(function() \x7b",
   "        var code = $('textarea[name=\"pine-code\"]').val();",
   "        $.post('/evaluate', \x7bcode: code\x7d, function(html) \x7b",
   "            $('#input-controller').html(html);",
   "            $('#result-viewer').html('');",
   "            $('#input-controller button').click(function() \x7b",
   "                data = $('#input-controller form').serialize()",
   "                $.post('/run', data, function(html) \x7b",
   "                    $('#result-viewer').html(html);",
   "                \x7d);",
   "            \x7d);",
   "        \x7d).fail(function() \x7b",
   "            $('#input-controller').html('ERROR');",
   "            $('#result-viewer').html('');",
   "        \x7d);",
   "    \x7d);",
   "\x7d);",
   "        </script>",
   "    </body>",
   "</html>"]

def failure (reason : String) : String := ofLines
  ["<hr>",
   "<h2>Fail to evaluate</h2>",
   "<p>" ++ Text.markup reason ++ "</p>"]

structure Choice where
  value : String
  chosen : Bool

inductive Control where
  | number (least most : String)
  | source (choices : List Choice)
  | options (choices : List Choice)
  | text
  | check (on : Bool)
  | nothing

structure Entry where
  title : String
  default : String
  control : Control

structure Form where
  title : String
  code : String
  symbols : List Choice
  resolutions : List (Choice × String)
  entries : List Entry

def choiceText (margin : String) (c : Choice) (shown : String) : String :=
  "\n" ++ margin ++ "    <option value=\"" ++ Text.markup c.value ++ "\" " ++
    (if c.chosen then " selected " else "") ++ ">" ++ Text.markup shown ++ "</option>\n" ++ margin

def choiceTexts (margin : String) (cs : List Choice) : String :=
  String.join (cs.map fun c => choiceText margin c c.value)

def controlText (title default : String) : Control → String
  | .number least most =>
    "\n            <input name='" ++ title ++ "' value='" ++ default ++ "' type='number'\n            min='" ++
      Text.markup least ++ "' max='" ++ Text.markup most ++ "' step='0.001' required></input>\n        "
  | .source choices =>
    "\n            <select name='" ++ title ++ "'>\n            " ++ choiceTexts "            " choices ++
      "\n            </select>\n        "
  | .options choices =>
    "\n            \n                <select name='" ++ title ++ "'>\n                " ++
      choiceTexts "                " choices ++ "\n                </select>\n            \n        "
  | .text =>
    "\n            \n                <input name='" ++ title ++ "' value='" ++ default ++
      "'</input>\n            \n        "
  | .check on =>
    "\n            <input name='" ++ title ++ "' value='" ++ default ++ "' type='checkbox'\n             " ++
      (if on then " checked " else "") ++ "></input>\n        "
  | .nothing => ""

def entryText (e : Entry) : String :=
  let title := Text.markup e.title
  "\n        <br>\n        <label for='" ++ title ++ "'>" ++ title ++ ": </label>\n        " ++
    controlText title (Text.markup e.default) e.control ++ "\n    "

def form (f : Form) : String := ofLines
  ["<hr>",
   "<h2>" ++ Text.markup f.title ++ " inputs</h2>",
   "<form>",
   "    <textarea name=\"code\" hidden>" ++ Text.markup f.code ++ "</textarea>",
   "    <label for=\"symbol\">Symbol: </label>",
   "    <select name=\"symbol\">",
   "        " ++ choiceTexts "        " f.symbols,
   "    </select>",
   "    <label for=\"resolution\">Tick: </label>",
   "    <select name=\"resolution\">",
   "        " ++ String.join (f.resolutions.map fun (c, shown) => choiceText "        " c shown),
   "    </select>",
   "",
   "    " ++ String.join (f.entries.map entryText),
   "    <div style=\"padding-left: 16em\">",
   "        <button type=\"button\">Run</button>",
   "    </div>",
   "</form>"]

def fieldText (j : Json) (key : String) : String :=
  match j.field? key with
  | some v => Text.markup v.toValue.printed
  | none => ""

def marketRow (name : String) (m : Json) : String := ofLines
  ["",
   "                    <tr>",
   "                        <td>" ++ Text.markup name ++ "</td>",
   "                        <td>" ++ fieldText m "ids" ++ "</td>",
   "                        <td>" ++ fieldText m "cryptowatch" ++ "</td>",
   "                        <td>" ++ fieldText m "resolutions" ++ "</td>",
   "                    </tr>",
   "                "]

def exchangePart? (name : String) (x : Json) : Option String := do
  let .obj markets ← x.field? "markets" | none
  pure (ofLines
    ["",
     "            <h2>" ++ Text.markup name ++ "</h2>",
     "            <dl>",
     "                <dt>name: </dt>",
     "                <dd>" ++ fieldText x "name" ++ "</dd>",
     "                <dt>ids: </dt>",
     "                <dd>" ++ fieldText x "ids" ++ "</dd>",
     "                <dt>cryptowatch: </dt>",
     "                <dd>" ++ fieldText x "cryptowatch" ++ "</dd>",
     "            </dl>",
     "            <table>",
     "                <thead>",
     "                    <tr>",
     "                        <td>name</td>",
     "                        <td>ids</td>",
     "                        <td>cryptowatch?</td>",
     "                        <td>resolutions</td>",
     "                    </tr>",
     "                </thead>",
     "                <tbody>",
     "                " ++ String.join (markets.map fun (name, m) => marketRow name m),
     "                </tbody>",
     "            </table>",
     "        "])

/-- The table of supported exchanges; nothing if an exchange has no markets that can be listed. -/
def exchanges? (table : Json) : Option String := do
  let .obj fields := table | none
  let parts ← fields.mapM fun (name, x) => exchangePart? name x
  pure (ofLines
    ["<!doctype html>",
     "<html lang=\"ja\">",
     "    <head>",
     "        <title>Exchange support list</title>",
     "        <meta charset=\"UTF-8\">",
     "    </head>",
     "    <body>",
     "        <h1>Exchange suport list</h1>",
     "        " ++ String.join parts,
     "    </body>",
     "</html>",
     ""])

end PineEngine.Page
