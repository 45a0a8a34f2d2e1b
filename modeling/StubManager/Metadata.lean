import StubManager.Failure
import StubManager.FileTree.Operations
import StubManager.Json.Value

/-!
# Metadata of stubs

Every stub directory has a `modules.json` that tells which firmware the stubs were made for.
`Metadata.parse?` reads it; keys it does not know are passed over.
-/

namespace StubManager

/-- The firmware that stubs were made for. -/
structure Firmware where
  name : String
  /-- The board the firmware runs on. -/
  port : Option String := none
  version : Option String := none
deriving DecidableEq, Repr, Inhabited

/-- What `modules.json` says of a stub. -/
structure Metadata where
  /-- The name the stub asks for. -/
  name : Option String := none
  firmware : Firmware
deriving DecidableEq, Repr, Inhabited

namespace Metadata

open Json

/-- The file that holds the metadata of a stub directory. -/
def fileName : String := "modules.json"

/-- The value of a key that goes by several names. None if it occurs twice. -/
def member? (keys : List String) (members : List (String × Value)) : Option (Option Value) :=
  match members.filter fun (key, _) => keys.contains key with
  | [] => some none
  | [(_, value)] => some (some value)
  | _ => none

/-- The text of a key that may be missing or `null`. -/
def optionalMember? (key : String) (members : List (String × Value)) : Option (Option String) := do
  match ← member? [key] members with
  | none => some none
  | some value => value.optional?

/-- The firmware an object or a list of values describes. -/
def firmware? : Value → Option Firmware
  | .object members => do
    let members ← decodeKeys? members
    let name ← (← member? ["name", "family"] members).bind Value.string?
    let port ← optionalMember? "port" members
    let version ← optionalMember? "version" members
    return { name, port, version }
  | .array [name] => do return { name := ← name.string? }
  | .array [name, port] => do return { name := ← name.string?, port := ← port.optional? }
  | .array [name, port, version] => do
    return { name := ← name.string?, port := ← port.optional?, version := ← version.optional? }
  | _ => none

/-- The metadata an object or a list of values describes. -/
def ofValue? : Value → Option Metadata
  | .object members => do
    let members ← decodeKeys? members
    let name ← optionalMember? "name" members
    let firmware ← (← member? ["firmware"] members).bind firmware?
    return { name, firmware }
  | .array [name, firmware] => do
    return { name := ← name.optional?, firmware := ← firmware? firmware }
  | _ => none

/-- Reads the text of `modules.json`. -/
def parse? (text : String) : Option Metadata := do ofValue? (← Value.parse? text.toList)

/-- The family installed stubs are grouped by: the board, or the firmware if no board is named. -/
def family (m : Metadata) : String := m.firmware.port.getD m.firmware.name

/-- The name for stubs taken from a device: the one they ask for, or firmware, board and
version. -/
def deviceName (m : Metadata) : String :=
  match m.name with
  | some name => name
  | none =>
    let board := if m.family = m.firmware.name then [] else [m.family]
    "-".intercalate ([m.firmware.name] ++ board ++ m.firmware.version.toList)

/-- Reads the metadata of a stub directory. -/
def load (directory : Path) : Action Failure Metadata := do
  let p := directory.join fileName
  let text ← (Files.readText p).adapt fun fault => .readFailed p.text fault.message
  match parse? text with
  | some metadata => return metadata
  | none => throw (.configUnreadable p.text)

end Metadata

end StubManager
