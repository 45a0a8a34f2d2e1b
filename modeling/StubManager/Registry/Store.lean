import StubManager.Bundle
import StubManager.Registry.Basic

/-!
# Registries on disk

`Registry.load` opens a registry, and a `Store` puts stubs in place and takes them away. The records
in hand change before they are saved, so `Work` keeps them also when saving fails.
-/

namespace StubManager

/-- The world together with the records in hand. -/
structure Site where
  world : World
  registry : Registry

/-- What a run does to a site, stopping at the first failure. -/
abbrev Work (α : Type) := ExceptT Failure (StateM Site) α

namespace Work

/-- Work that leaves the records alone. -/
def onWorld {α : Type} (action : Action Failure α) : Work α := fun site =>
  let (result, world) := action site.world
  (result, { site with world })

instance : MonadLift (Action Failure) Work := ⟨onWorld⟩

/-- Work that is followed by a change of the world, however it ends. -/
def andFinally {α : Type} (body : Work α) (cleanup : World → World) : Work α := fun site =>
  let (result, site) := body site
  (result, { site with world := cleanup site.world })

/-- The records in hand. -/
def registry : Work Registry := do return (← getThe Site).registry

/-- Changes the records in hand. -/
def changeRegistry (change : Registry → Registry) : Work Unit :=
  modifyThe Site fun site => { site with registry := change site.registry }

end Work

/-- How stubs are put in place and taken away. Operations leave this open, so that what they undo
can be said of any way in which it fails. -/
structure Store where
  install : Bundle → Work Record
  uninstall : String → Work Record

namespace Registry

/-- Opens the registry below a home directory. Without an index it is empty. -/
def load (home : Path) : Action Failure Registry := do
  let index := home.join fileName
  if !(← Files.ask (·.isFile index)) then return { home }
  let text ← (Files.readText index).adapt fun fault => .readFailed index.text fault.message
  match Index.parse? text with
  | some records => return { home, records }
  | none => throw (.configUnreadable index.text)

/-- Writes the records to the index. -/
def save (registry : Registry) : Action Failure Unit :=
  let index := registry.indexPath
  (Files.replace index (Index.render registry.records).toUTF8).adapt fun fault =>
    .writeFailed index.text fault.message

/-- Puts a copy of a directory in the place of another. -/
def place (source target : Path) : Action Failure Unit := do
  let incoming := target.withFileName (".incoming-" ++ target.fileName?.getD "")
  Files.stopping (Files.clear incoming)
  match ← (Files.copyTree [] source incoming).run with
  | .ok () => pure ()
  | .error fault =>
    Files.passing (Files.removeTree incoming)
    throw (.writeFailed target.text fault.message)
  Files.stopping (Files.moveOver incoming target)

/-- Copies a bundle into the registry and records it. -/
def install (bundle : Bundle) : Work Record := do
  let directory ← MonadExcept.ofExcept ((← Work.registry).directory bundle.name)
  place bundle.path directory
  let record := bundle.record (← Files.now)
  Work.changeRegistry (·.upsert record)
  (← Work.registry).save
  return record

/-- Removes a stub and its record. -/
def uninstall (name : String) : Work Record := do
  match (← Work.registry).find? name with
  | none => throw (.notInstalled name)
  | some record =>
    let directory ← MonadExcept.ofExcept ((← Work.registry).directory name)
    Files.stopping (Files.clear directory)
    Work.changeRegistry (·.erase name)
    (← Work.registry).save
    return record

/-- The store of the registry itself. -/
def store : Store := { install, uninstall }

end Registry

end StubManager
