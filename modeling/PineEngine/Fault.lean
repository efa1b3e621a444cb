import PineEngine.Script.Token

/-! # Faults

Everything that can stop an operation, as a cause. Faults of a script carry a text for its author;
`Fault.message?` is the only place where these texts are written.
-/

namespace PineEngine

open Script

/-- A mistake in a script, or a use of the language that is not supported. -/
inductive ScriptError where
  /-- No token starts with this character. -/
  | invalidCharacter (c : Char)
  /-- The token, or the end of the text, cannot stand here. -/
  | unexpectedToken (t : Option Token)
  | functionNotFound (name : String)
  | variableNotFound (name : String)
  | assignToBuiltin (name : String)
  /-- A built-in function that is known but not available. -/
  | notImplemented (name : String)
  /-- Only a series has a history to look back on. -/
  | notIndexable (type : String)
  | indexNotInteger
  /-- A variable that is assigned to holds numbers or truth values. -/
  | immutableKind (type value : String)
  /-- Cells of this kind have no default. -/
  | noDefault (kind : String)
  | limitOrder
  | ocaOrder
  | report (text : String)

inductive ArgumentError where
  | tooMany (given parameters : Nat)
  | missing (name : String)
  | wrongType (name type expected : String)

inductive Fault where
  | script (e : ScriptError)
  | argument (e : ArgumentError)
  | market (text : String)
  /-- The operation is not defined for operands of these kinds. -/
  | operands
  | member
  | index
  | key
  /-- A value of the right kind that is not acceptable. -/
  | value
  | unimplemented
  | overflow
  | zeroDivision
  | unknownZone
  | name
  /-- A local name that has no value yet. -/
  | unset
  | badRequest
  | request
  | fileNotFound
  | figureKey
  | figureRow
  | unsupportedExchange
  /-- A loop that would never end. -/
  | endless

namespace ScriptError

def message : ScriptError → String
  | invalidCharacter c => "invalid character: " ++ String.singleton c
  | unexpectedToken none => "Unexpected token: None"
  | unexpectedToken (some t) => "Unexpected token: " ++ t.shown
  | functionNotFound n => "function is not found: " ++ n
  | variableNotFound n => "variable not found: " ++ n
  | assignToBuiltin n => "cannot assign to built-in variable: " ++ n
  | notImplemented n => "not implemented: " ++ n
  | notIndexable t => "cannot access by index for: " ++ t
  | indexNotInteger => "index must be an interger"
  | immutableKind t v => "invalid type for mutable variable: " ++ t ++ ": " ++ v
  | noDefault k => "No default value for series: " ++ k
  | limitOrder => "limit order is not supported"
  | ocaOrder => "OCA order is not supported"
  | report s => s

end ScriptError

namespace ArgumentError

def message : ArgumentError → String
  | tooMany a p => "Too many arguments: " ++ toString a ++ " for " ++ toString p
  | missing n => "Missing mandatory arguemnt: " ++ n
  | wrongType n t e => "Invalid argument type: " ++ n ++ ": " ++ t ++ " for " ++ e

end ArgumentError

def Fault.message? : Fault → Option String
  | .script e => some e.message
  | .argument e => some e.message
  | .market s => some s
  | _ => none

end PineEngine
