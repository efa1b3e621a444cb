import PineEngine.Fault
import PineEngine.Text.Digest
import PineEngine.Value

/-! # The journal of scripts

Scripts that came in are kept in a folder, one file each. A file is named for the title of its script and for
the machine that runs it, or for the digest of the script if no machine has a name. Nothing is kept as long
as the folder is missing.
-/

namespace PineEngine.Journal

def folder : String := "pine-codes"

/-- What is known of a script when it is kept: its title, and the name of the machine that runs it. -/
structure Label where
  title : Value
  ident : String

def fileName (code : String) (label : Option Label) : Except Fault String := do
  let title ← match label with
    | none => pure "NoTitle"
    | some { title := .text s, .. } | some { title := .cell (.text s), .. } => pure s
    | some _ => .error .operands
  let ident := match label with
    | some { ident, .. } => if ident.isEmpty then Text.digest code else ident
    | none => Text.digest code
  pure (title ++ "@" ++ ident ++ ".pine")

/-- Where a path leads that starts in a folder below the folder of the program: the folders on the way, or
    nothing if it leads out of the program's folder. Only the folder of the journal can be entered. -/
def walk (here : List String) : List String → Except Fault (Option (List String))
  | [] => .ok (some here)
  | "" :: rest | "." :: rest => walk here rest
  | ".." :: rest =>
    match here with
    | [] => .ok none
    | _ :: above => walk above rest
  | name :: rest => if here.isEmpty && name == folder then walk [name] rest else .error .fileNotFound

/-- Where the file of a script goes, from the folder of the program; nothing if it goes elsewhere. -/
def place (name : String) : Except Fault (Option String) := do
  if name.toList.contains '\x00' then .error .value
  let parts := name.splitOn "/"
  let (start, way) := if name.startsWith "/" then (none, parts.dropLast.drop 1)
    else (some [folder], parts.dropLast)
  match start with
  | none => if way.isEmpty then pure none else .error .fileNotFound
  | some here =>
    match ← walk here way with
    | some found => pure (some (String.intercalate "/" (found.reverse ++ [parts.getLastD name])))
    | none => pure none

def record (hasFolder : Bool) (code : String) (label : Option Label) :
    Except Fault (List (String × String)) := do
  if !hasFolder then return []
  match ← place (← fileName code label) with
  | some path => return [(path, code)]
  | none => return []

end PineEngine.Journal
