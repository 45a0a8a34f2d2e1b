import StubManager.Project
import StubManager.Registry.Basic

/-!
# Listing stubs

`Listing.load` groups the installed stubs by family: all of them, or those that a project lists. For
a project it also tells which of the listed names are not installed.
-/

namespace StubManager

/-- Which stubs a listing is about. -/
inductive ListScope where
  | project (name : String)
  | everything
deriving DecidableEq, Repr, Inhabited

/-- Installed stubs by family. -/
structure Listing where
  scope : ListScope
  groups : Registry.Groups
  /-- Listed names without a record. -/
  missing : List String := []
deriving Repr, Inhabited

namespace Listing

/-- The listing of everything. -/
def ofRegistry (registry : Registry) : Listing :=
  { scope := .everything, groups := registry.groups }

/-- The listing of the names that a project uses. -/
def ofNames (registry : Registry) (project : String) (names : List String) : Listing where
  scope := .project project
  groups := (registry.families names).map fun family => (family, registry.ofFamily family names)
  missing := names.filter fun name => (registry.find? name).isNone

/-- Lists what a project uses, or everything. -/
def load (registry : Registry) : Option Project → Action Failure Listing
  | none => return .ofRegistry registry
  | some project => do return .ofNames registry project.name (← project.manifest.entries)

end Listing

end StubManager
