import StubManager.Timestamp
import StubManager.Yaml.Node
import StubManager.Yaml.Scalar

/-!
# Records of installed stubs

What a registry keeps of a stub, and the text of a whole index: `Index.render` writes the records
and `Index.parse?` reads them.
-/

namespace StubManager

/-- What is known of an installed stub. -/
structure Record where
  name : String
  /-- The family the stub is listed under. -/
  firmware : String
  version : Option String := none
  /-- Where the stub came from. -/
  source : String
  installed : Timestamp
deriving DecidableEq, Repr, Inhabited

namespace Index

open Yaml

/-- The lines of a record; the first starts with a hyphen. -/
def recordText (record : Record) : List Char :=
  let fields := [("name", record.name), ("firmware", record.firmware)]
    ++ record.version.toList.map ("firmware_version", ·)
    ++ [("source", record.source), ("installed_at", record.installed.render)]
  let lines := fields.map fun (key, text) => Scalar.entry key text
  '-' :: ' ' :: [' ', ' '].intercalate lines

/-- The text of an index. -/
def render (records : List Record) : String :=
  if records.isEmpty then "stubs: []\n"
  else String.ofList ("stubs:\n".toList ++ records.flatMap recordText)

/-- The record of a mapping. -/
def recordOf? (document : Document) (node : Yaml.Node) : Option Record := do
  let members ← document.entries? node
  return {
    name := ← document.required? "name" members
    firmware := ← document.required? "firmware" members
    version := ← document.optionalMember? "firmware_version" members
    source := ← document.required? "source" members
    installed := ← Timestamp.parse? (← document.required? "installed_at" members) }

/-- Reads the text of an index. -/
def parse? (text : String) : Option (List Record) := do
  let document ← Document.parse? text
  let members ← document.entries? (document.root.getD .empty)
  match ← Document.member? "stubs" members with
  | none => return []
  | some stubs => (← document.items? stubs).mapM (recordOf? document)

end Index

end StubManager
