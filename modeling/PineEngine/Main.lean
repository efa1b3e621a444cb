import PineEngine.Console
import PineEngine.Json.Reader

/-! # The program

`preprocess FILE`, `lexer FILE` and `parser FILE` show a script at the stages of its compilation;
`runner TASK FILE` hands it to a machine. The runner reads the candles of the venues from standard input, as
one JSON object: venue, resolution, column.
-/

namespace PineEngine.Main

open Console

def candles (j : Json) : Candles :=
  Candles.ofColumns fun f => match j.field? f.key with
    | some (.arr items) => Json.toValues items
    | _ => []

def fields : Json → List (String × Json)
  | .obj fs => fs
  | _ => []

def relay (j : Json) : Relay :=
  Relay.ofTables ((fields j).map fun (name, archive) =>
    (name, (fields archive).map fun (res, c) => (res, candles c)))

def complaint (e : Fault) : String :=
  "error: " ++ (e.message?.getD "the script cannot be run")

def report (p : Printout) : IO UInt32 := do
  IO.print p.text
  match p.fault with
  | none => pure 0
  | some e =>
    IO.eprintln (complaint e)
    pure 1

def runTool (tool : Tool) (args : List String) : IO UInt32 := do
  match tool.file args with
  | .error e => report ⟨"", some e⟩
  | .ok path =>
    let code ← IO.FS.readFile path
    let served ← if tool == .runner then do
        let input ← (← IO.getStdin).readToEnd
        pure ((Json.read? input).getD (.obj []))
      else pure (.obj [])
    report (run tool args code (relay served))

end PineEngine.Main

def main (args : List String) : IO UInt32 := do
  match args with
  | [] =>
    IO.eprintln "usage: (preprocess | lexer | parser | runner TASK) FILE"
    pure 2
  | name :: rest =>
    match PineEngine.Console.Tool.ofName? name with
    | none =>
      IO.eprintln ("unknown tool: " ++ name)
      pure 2
    | some tool => PineEngine.Main.runTool tool rest
