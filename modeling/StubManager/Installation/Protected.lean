import StubManager.Project
import StubManager.Registry.Store
import StubManager.Transaction

/-!
# Changes that are all or nothing

`Work.protecting` runs a change of the registry and a manifest after remembering what it touches.
A failure brings the remembered files and directories back.
-/

namespace StubManager

/-- What a change of a stub touches: its footprint, and the manifest if that is edited. -/
def Footprint.targets (footprint : Footprint) (edited : Option Path) : List Transaction.Target :=
  footprint.files.map .file ++ [.directory footprint.directory] ++ edited.toList.map .file

namespace Work

/-- A change after remembering what it touches. What was remembered is brought back if the change
fails, and given up otherwise. -/
def protecting {α : Type} (targets : List Transaction.Target) (body : Work α) : Work α := do
  let transaction ← (Transaction.begin {} targets : Action Failure Transaction)
  fun site =>
    match body site with
    | (.ok a, site) => (.ok a, { site with world := transaction.commit site.world })
    | (.error f, site) => (.error f, { site with world := transaction.rollback site.world })

/-- The edit of a manifest that a change of its list amounts to, with the place to save it. -/
def planEdit (manifest : Option Manifest) (change : ChangeSet) : Work (Option (Artifact × Path)) :=
  match manifest with
  | none => return none
  | some manifest => do
    let planned ← (manifest.plan change : Action Failure (Option Artifact))
    return planned.map (·, manifest.path)

/-- Saves a planned edit; whether there was one. -/
def saveEdit : Option (Artifact × Path) → Work Bool
  | none => return false
  | some (artifact, p) => do
    (artifact.save p : Action Failure Unit)
    return true

end Work

end StubManager
