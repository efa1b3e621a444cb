import PineEngine.Column.Print
import PineEngine.Machine.Session
import PineEngine.Venue.Relay

/-! # Command lines

Tools that show a script at each stage: its prepared text, its tokens, its tree, and what a machine makes of
it. A tool prints until it is done or a fault ends it.
-/

namespace PineEngine.Console

open Script

inductive Tool where
  | layout
  | tokens
  | tree
  | runner
  deriving DecidableEq, Repr

structure Printout where
  text : String
  fault : Option Fault := none

abbrev PrintM := ExceptT Fault (StateM String)

instance : MonadLift (Except Fault) PrintM := ⟨MonadExcept.ofExcept⟩

def line (s : String) : PrintM Unit :=
  modify (· ++ s ++ "\n")

def printout (m : PrintM Unit) : Printout :=
  match (m.run).run "" with
  | (.ok _, text) => ⟨text, none⟩
  | (.error e, text) => ⟨text, some e⟩

namespace Tool

def ofName? : String → Option Tool
  | "preprocess" => some layout
  | "lexer" => some tokens
  | "parser" => some tree
  | "runner" => some runner
  | _ => none

def file (t : Tool) (args : List String) : Except Fault String :=
  match args[if t == runner then 1 else 0]? with
  | some path => .ok path
  | none => .error .index

end Tool

def prepared (code : String) : Except Fault (List Char) :=
  match Layout.prepare? code with
  | some cs => .ok cs
  | none => .error .index

def showLayout (code : String) : PrintM Unit := do
  line (String.ofList (← prepared code))

def showTokens (code : String) : PrintM Unit := do
  let scan := Lexer.run (← prepared code)
  scan.tokens.forM fun t =>
    line (t.kind.label ++ " " ++ t.value.value.printed ++ " " ++ toString t.line ++ " " ++ toString t.pos)
  if let some e := scan.fault then throw e

def showTree (code : String) : PrintM Unit := do
  let cs ← prepared code
  let lines := (Text.lines cs).map fun l => Value.text (String.ofList l)
  let some t ← Parser.parse cs | throw .member
  let .node _ _ _ _ _ children := (t.outline 0).1 | throw .member
  children.forM fun o => do
    match o with
    | .node _ (some n) _ _ _ _ =>
      let source ← Value.itemOf lines ((n : Int) - 1)
      line (toString n ++ ": " ++ source.printed ++ ": " ++ o.text true)
    | .node _ none _ _ _ _ => throw .operands
    | _ => throw .member

def onMachine {α : Type} (m : Machine) (work : MachineM α) : PrintM (α × Machine) := do
  let (r, m) := (work.run).run m
  pure (← r, m)

def registerText (m : Machine) : Value → String
  | .series r => toString (m.store.valid r) ++ ": " ++ (m.store.column r).printed
  | .definition id =>
    match m.context.bind (Machine.register? · (some id)) with
    | some r => (r.code.outline m.program.mutable []).1.headAgain
    | none => (Value.definition id).printed
  | v => m.store.printed v

def showRegisters (m : Machine) : PrintM Unit :=
  ((m.context.map (·.registers)).getD []).forM fun r => do
    line ((r.code.outline m.program.mutable []).1.text true)
    line ("=====> " ++ registerText m r.value)

def showCode (m : Machine) : PrintM Unit :=
  line (m.program.outline.text true)

/-- A description of an input as it is printed. The sources that are offered stand in parentheses. -/
def inputText (s : Store) : Value → String
  | .dict fields =>
    let offered := Value.list (Source.offered.map fun x => .text x.label)
    "\x7b" ++ String.intercalate ", " (fields.map fun (k, v) =>
      let shown := s.shown v
      let shown := if k == "options" && shown == offered.shown then
          "(" ++ String.ofList ((shown.toList.drop 1).dropLast) ++ ")"
        else shown
      Text.quoted k ++ ": " ++ shown) ++ "\x7d"
  | v => s.shown v

inductive Task where
  | input
  | run
  | step
  | plot
  deriving DecidableEq, Repr

def Task.ofName? : String → Option Task
  | "input" => some input
  | "run" => some run
  | "step" => some step
  | "plot" => some plot
  | _ => none

def perform (relay : Relay) (p : Program) : Task → PrintM Unit
  | .input => do
    let m ← Machine.scanner p
    showCode m
    line (m.store.shown (.dict m.header))
    let (inputs, m) ← onMachine m Machine.scanInputs
    line ("[" ++ String.intercalate ", " (inputs.map (inputText m.store)) ++ "]")
    showRegisters m
  | .plot => do
    let market ← relay.openMarket .bitmex []
    let _ ← onMachine (Machine.new .plot market) (do
      Machine.load p
      Machine.run)
  | task => do
    let market ← relay.openMarket .bitmex []
    let (_, m) ← onMachine (Machine.new .plain market) (Machine.load p)
    showCode m
    let m := { m with broker := some Broker.simulated }
    let (_, m) ← onMachine m (if task == .run then Machine.run else Machine.step)
    showRegisters m

def runTask (relay : Relay) (name code : String) : PrintM Unit := do
  let p ← compile code
  match Task.ofName? name with
  | some t => perform relay p t
  | none => pure ()

def run (t : Tool) (args : List String) (code : String) (relay : Relay) : Printout :=
  let code := String.ofList (Text.unifyLineEnds code.toList)
  printout (match t with
    | .layout => showLayout code
    | .tokens => showTokens code
    | .tree => showTree code
    | .runner => runTask relay (args.headD "") code)

end PineEngine.Console
