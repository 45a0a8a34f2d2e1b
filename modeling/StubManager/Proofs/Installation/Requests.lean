import StubManager.Proofs.Installation.Extracting

/-!
# Requests

A `Request` is anything that changes a registry: an addition, an extraction from a device or a
removal, with the store that carries it out and the list that is edited. `ends_perform`: it ends
with the index as it was, or with the records in hand saved.
-/

namespace StubManager

open Node World Registry Installation

/-- What can be asked of a registry. -/
inductive Task where
  /-- To add the stub that goes by a name or lies in a directory. -/
  | add (catalog : Path) (identifier : String) (force : Bool)
  /-- To add a bundle that is already staged. -/
  | register (bundle : Bundle) (force : Bool)
  /-- To take the stubs of a device and install them. -/
  | extract {δ : Type} (transport : Transport δ) (device : δ) (request : ExtractionRequest)
  | remove (name : String)

/-- Whether a task uses only transports that keep an index. -/
def Task.Keeping (home : Path) : Task → Prop
  | extract transport _ _ => transport.Keeping home
  | _ => True

/-- A task with the store that carries it out and the manifest that lists the stubs. -/
structure Request where
  task : Task
  manifest : Option Manifest := none
  store : Store := Registry.store

namespace Request

variable {site : Site} {request : Request} {home : Path} {cwd : List String}

/-- Carries out a request; what it did to the records. -/
def perform (request : Request) : Work Effect :=
  match request.task with
  | .add catalog identifier force => do
    return (← add request.store catalog request.manifest identifier force).effect
  | .register bundle force => do
    return (← register request.store request.manifest bundle force).effect
  | .extract transport device extraction => do
    let work := Extraction.run transport request.store request.manifest extraction
    return (← Extraction.withDevice work device).effect
  | .remove name => do
    let _ ← remove request.store request.manifest name
    return .removed name

/-- Whether a request is carried out by the store of the registry, one that fails, or any other that
saves what it changes, edits no list in the place of the index, and leaves the index to them. -/
structure Proper (home : Path) (cwd : List String) (request : Request) : Prop where
  store : request.store = Registry.store ∨
    (∃ failure stage, request.store = failingStore failure stage) ∨ request.store.Saving
  list : ListedApart request.manifest home cwd
  keeping : request.task.Keeping home

theorem Proper.saving (h : request.Proper home cwd) : request.store.Saving := by
  obtain heq | ⟨failure, stage, heq⟩ | hstore := h.store
  · rw [heq]
    exact store_saving
  · rw [heq]
    exact failingStore_saving failure stage
  · exact hstore

/-- A request ends with the index as it was, or with the records in hand saved. -/
theorem ends_perform (hsettled : Settled site.registry.home site.world)
    (h : request.Proper site.registry.home site.world.cwd) :
    Ends id site (request.perform site) := by
  have hstore := h.saving
  have hkeeping := h.keeping
  rw [perform]
  cases htask : request.task with
  | add catalog identifier force =>
    dsimp only
    rw [Work.map_apply]
    exact (ends_add hstore hsettled h.list catalog identifier force).map fun _ => rfl
  | register bundle force =>
    dsimp only
    rw [Work.map_apply]
    exact (ends_register hstore hsettled h.list bundle force).map fun _ => rfl
  | extract transport device extraction =>
    rw [htask] at hkeeping
    dsimp only
    rw [Work.map_apply]
    exact (Extraction.ends_run hkeeping hstore hsettled h.list extraction device).map fun _ => rfl
  | remove name =>
    dsimp only
    rw [Work.map_apply]
    exact (ends_remove hstore hsettled h.list name).map fun _ => rfl

end Request

end StubManager
