import StubManager.Installation.Protected

/-!
# Installing and removing stubs

`Installation.add` installs the stub that goes by a name or lies in a directory and lists it in the
manifest; `Installation.register` does so for a bundle that is already staged. A stub that is
installed already is only listed, unless the change is forced. `Installation.remove` takes a stub
out of the manifest and then out of the registry.
-/

namespace StubManager

/-- What an addition did. -/
structure Added where
  record : Record
  alreadyInstalled : Bool
  manifestUpdated : Bool
deriving DecidableEq, Repr, Inhabited

/-- What a removal did. -/
structure Removed where
  record : Record
  manifestUpdated : Bool
deriving DecidableEq, Repr, Inhabited

namespace Installation

/-- Lists a stub that is installed already. -/
def listInstalled (manifest : Option Manifest) (record : Record) : Work Added := do
  let edit ← Work.planEdit manifest (.adding [record.name])
  return { record, alreadyInstalled := true, manifestUpdated := ← Work.saveEdit edit }

/-- Installs a bundle and lists it. -/
def installBundle (store : Store) (manifest : Option Manifest) (bundle : Bundle) : Work Added := do
  let edit ← Work.planEdit manifest (.adding [bundle.name])
  let footprint ← MonadExcept.ofExcept ((← Work.registry).footprint bundle.name)
  Work.protecting (footprint.targets (edit.map (·.2))) do
    let record ← store.install bundle
    return { record, alreadyInstalled := false, manifestUpdated := ← Work.saveEdit edit }

/-- Adds a staged bundle. -/
def register (store : Store) (manifest : Option Manifest) (bundle : Bundle) (force : Bool) :
    Work Added := do
  match (← Work.registry).find? bundle.name, force with
  | some record, false => listInstalled manifest record
  | _, _ => installBundle store manifest bundle

/-- Adds the stub that goes by a name or lies in a directory. -/
def add (store : Store) (catalog : Path) (manifest : Option Manifest) (identifier : String)
    (force : Bool) : Work Added := do
  match (← Work.registry).find? identifier, force with
  | some record, false => listInstalled manifest record
  | _, _ =>
    let bundle ← (Bundle.ofIdentifier catalog identifier : Action Failure Bundle)
    (register store manifest bundle force).andFinally (Bundle.discard bundle.staging)

/-- Removes an installed stub. -/
def remove (store : Store) (manifest : Option Manifest) (name : String) : Work Removed := do
  if ((← Work.registry).find? name).isNone then throw (.notInstalled name)
  let edit ← Work.planEdit manifest (.removing [name])
  let footprint ← MonadExcept.ofExcept ((← Work.registry).footprint name)
  Work.protecting (footprint.targets (edit.map (·.2))) do
    let manifestUpdated ← Work.saveEdit edit
    return { record := ← store.uninstall name, manifestUpdated }

end Installation

end StubManager
