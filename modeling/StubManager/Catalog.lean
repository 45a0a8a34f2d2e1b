import StubManager.FileTree.Temporary
import StubManager.Yaml.Node

/-!
# Catalogs

A catalog is a directory of stubs with an index, `catalog.yaml`, that gives each a name, a path and
perhaps a digest.
-/

namespace StubManager

/-- What the index says of one stub. -/
structure CatalogEntry where
  name : String
  /-- Where the stub lies below the catalog. -/
  path : String
  /-- The digest the stub has to have. -/
  hash : Option String := none
deriving DecidableEq, Repr, Inhabited

/-- A directory of stubs and its index. -/
structure Catalog where
  root : Path
  entries : List CatalogEntry := []
deriving DecidableEq, Repr, Inhabited

namespace Catalog

open Yaml

/-- The file that holds the index. -/
def fileName : String := "catalog.yaml"

private def entryOf? (document : Document) (node : Yaml.Node) : Option CatalogEntry := do
  let members ← document.entries? node
  return {
    name := ← document.required? "name" members
    path := ← document.required? "path" members
    hash := ← document.optionalMember? "hash" members }

/-- Reads the text of an index. -/
def parse? (text : String) : Option (List CatalogEntry) := do
  let document ← Document.parse? text
  let members ← document.entries? (document.root.getD .empty)
  match ← Document.member? "stubs" members with
  | none => return []
  | some stubs => (← document.items? stubs).mapM (entryOf? document)

/-- Opens the catalog in a directory. Without an index it is empty. -/
def load (root : Path) : Action Failure Catalog := do
  let index := root.join fileName
  if !(← Files.ask (·.isFile index)) then return { root }
  let text ← (Files.readText index).adapt fun fault => .readFailed index.text fault.message
  match parse? text with
  | some entries => return { root, entries }
  | none => throw (.configUnreadable index.text)

/-- The first entry of a name. -/
def find? (catalog : Catalog) (name : String) : Option CatalogEntry :=
  catalog.entries.find? (·.name = name)

/-- Where the stub of an entry lies. -/
def location (catalog : Catalog) (entry : CatalogEntry) : Path := catalog.root.join entry.path

end Catalog

end StubManager
