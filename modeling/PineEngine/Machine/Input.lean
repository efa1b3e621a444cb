import PineEngine.Machine.Function

/-! # Inputs of a script

A script asks for inputs by title and default. A scanning machine answers with a description of the input;
other machines with the value that the user gave, brought to the type of the input.
-/

namespace PineEngine.Machine

open Builtin

/-- The title of an input that names none: its number among the inputs of the script. -/
def defaultTitle (code : Script.Code) : MachineM String := do
  match (← get).annotations.inputs.findIdx? (·.id? == code.id?) with
  | some i => pure ("input" ++ toString (i + 1))
  | none => throw .value

def inputType (s : Store) (default : Value) : Option String :=
  match default with
  | .bool _ => some "bool"
  | .int _ => some "integer"
  | .float _ => some "float"
  | .series r => if (s.head r).origin == .plain then none else some "source"
  | _ => none

def inputTitle (code : Script.Code) (a : Arguments) : MachineM Value := do
  if (a.value "title").isTrue then pure (a.value "title")
  else pure (.text (← defaultTitle code))

/-- The default, the type and the options of an input. A source is named, and offered beside others. -/
def inputForm (a : Arguments) : MachineM (Value × Value × Value) := do
  let default := a.value "defval"
  let options := a.value "options"
  match a.value "type" with
  | .absent =>
    match inputType (← get).store default, default with
    | some "source", .series r => do
      let name ← onStore r.sourceName
      let offered := Value.list (Source.offered.map fun s => .text s.label)
      let options := if ← truth options then options else offered
      pure (.text name, .text "source", options)
    | t, _ => pure (default, .text (t.getD "string"), options)
  | t => pure (default, t, options)

def describeInput (code : Script.Code) (a : Arguments) : MachineM Value := do
  let title ← inputTitle code a
  let (default, type, options) ← inputForm a
  pure (.dict [("defval", default), ("title", title), ("type", type), ("minval", a.value "minval"),
    ("maxval", a.value "maxval"), ("options", options)])

def typedInput (type : String) (v : Value) : MachineM Value := do
  match type with
  | "bool" => do pure (.bool (← truth v))
  | "integer" => do pure (.int (← v.toInt))
  | "float" => do pure (.float (← v.toFloat))
  | "source" =>
    if v.isKey then
      match Source.offered.find? fun s => (Value.text s.label).same v with
      | some s => source s
      | none => throw .key
    else throw .operands
  | _ => pure v

def givenInput (given : Value) (title : String) : Except Fault Value :=
  match given with
  | .dict fields => .ok (Fields.getD fields title)
  | _ => .error .member

/-- The type that a call names, or else the one that its default tells. -/
def namedType (s : Store) (a : Arguments) : String :=
  let inferred := (inputType s (a.value "defval")).getD ""
  match a.value "type" with
  | .text t => if t.isEmpty then inferred else t
  | .cell (.text t) => t
  | _ => inferred

/-- The value of an input: its default as long as the user gave no inputs at all. -/
def userInput (code : Script.Code) (a : Arguments) : MachineM Value := do
  let given := (← get).userInputs
  if ← truth given then
    let title ← inputTitle code a
    let v ← givenInput given title.printed
    typedInput (namedType (← get).store a) v
  else pure (a.value "defval")

def askInput (code : Script.Code) (args : List Value) (named : Fields) : MachineM Value := do
  let a ← bind Function.input.signature args named
  match (← get).mode with
  | .scan => describeInput code a
  | _ => userInput code a

end PineEngine.Machine
