import StubManager.Proofs.FileTree.Sparing
import StubManager.Proofs.Registry.Keeping
import StubManager.Proofs.Registry.Store

/-!
# What is spared with a stub

Installing and removing a stub spare every tree that lies apart from the index, the directory of the
stub and the one it comes in by, and that the path of the home does not go into (`Separate`):
`Work.Stepwise.spares`.
-/

namespace StubManager

open Node Running World

namespace Registry

variable {base : Path} {part name : String} {kept dirs : List String → Prop} {w w' : World}

/-- No draft of the index comes to lie where an entry beside the stubs does. -/
theorem undrafted_entry (base : Path) (entry : String) :
    Undrafted (base.join fileName) w (entryPlace (base.place w.cwd) entry) := by
  refine .inr fun draft _ heq => ?_
  have hplace := Files.place_holder (by decide : IsName fileName)
    (Path.endsWith_join base (by decide)) w.cwd
  rw [Path.place_join base (by decide)] at hplace
  obtain ⟨hholder, -⟩ := List.append_inj' hplace rfl
  rw [← hholder] at heq
  simpa [entryPlace] using congrArg List.length heq

/-- Whether kept trees are apart from what changes with a stub, and from the way to it. -/
structure Separate (base : Path) (part : String) (kept dirs : List String → Prop) (w : World) :
    Prop where
  turns : ∀ turn, base.TurnsAt w.cwd turn → Outside kept turn
  index : Outside kept (indexPlace (base.place w.cwd))
  entries : ∀ entry, entry = part ∨ entry = incomingName part →
    Aloof kept dirs (entryPlace (base.place w.cwd) entry)
  drafts : ∀ place, kept place → Undrafted (base.join fileName) w place

namespace Separate

theorem way (h : Separate base part kept dirs w) {place : List String}
    (hpasses : base.Passes w.cwd place) : Outside kept place := by
  obtain ⟨turn, hturn, hle⟩ | hle := hpasses.le
  · exact (h.turns turn hturn).of_le hle
  · exact h.index.of_le (hle.trans (List.prefix_append _ _))

theorem index_way (h : Separate base part kept dirs w) {place : List String}
    (hpasses : (base.join fileName).Passes w.cwd place) : Outside kept place := by
  obtain hpasses | rfl := Path.passes_join (by decide) hpasses
  · exact h.way hpasses
  · exact h.index

end Separate

theorem spared_place (h : Separate base part kept dirs w) (hpart : IsName part) (source : Path) :
    Keeps (Spared kept dirs w) (place source (stubPath base part)) := by
  refine keeps_place_of (enduring_spared kept dirs w) hpart (fun _ => h.way) ?_
    (h.entries part (.inl rfl)) (h.entries _ (.inr rfl)).roomy source
  refine (h.entries part (.inl rfl)).outside.of_le ?_
  rw [entryPlace_eq]
  exact List.prefix_append _ _

theorem spared_clear (h : Separate base part kept dirs w) (hpart : IsName part) :
    Keeps (Spared kept dirs w) (Files.stopping (Files.clear (stubPath base part))) := by
  refine ((enduring_spared kept dirs w).keeps_clear ?_).adapt _
  rw [place_stubPath base hpart]
  exact h.entries part (.inl rfl)

theorem spared_save {registry : Registry} (h : Separate registry.home part kept dirs w) :
    Keeps (Spared kept dirs w) registry.save :=
  Keeps.adapt (spared_replace (by decide) (Path.endsWith_join _ (by decide))
    (fun _ => h.index_way) h.drafts _) _

/-- The steps on a stub spare what is apart. -/
theorem sustained_spared {site : Site} (h : Separate base (directoryName name) kept dirs w)
    (hsite : Underway base (Spared kept dirs w) site) :
    Sustained (Spared kept dirs w) name site where
  start := hsite.world
  place source hpart := hsite.home.symm ▸ spared_place h hpart source
  clear hpart := hsite.home.symm ▸ spared_clear h hpart
  now _ hspared := hspared.of_root_eq rfl rfl rfl
  save registry hhome := by
    rw [← hsite.home, ← hhome] at h
    exact spared_save h

end Registry

/-- Work that keeps what the steps on a stub keep spares what is apart from these. -/
theorem Work.Stepwise.spares {α : Type} {work : Work α} {name : String} (hwork : work.Stepwise name)
    {base : Path} {kept dirs : List String → Prop} {w : World}
    (h : Registry.Separate base (Registry.directoryName name) kept dirs w) :
    Keeps (Registry.Underway base (Spared kept dirs w)) work := by
  intro site hsite
  have hended := hwork _ site (Registry.sustained_spared h hsite)
  rwa [hsite.home] at hended

end StubManager
