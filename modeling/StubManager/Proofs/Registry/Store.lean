import StubManager.Proofs.FileTree.Replacing
import StubManager.Proofs.Registry.Confinement

/-!
# The store of a registry

`store_confined`: installing and removing a stub change nothing but the index, the directory of the
stub and the one it comes in by, wherever they stop. `failingStore_confined`: neither does a store
that fails before or after its work. Both follow from what the steps on a stub keep
(`Store.Stepwise`).
-/

namespace StubManager

open Node Running World

namespace Registry

variable {base : Path} {part : String} {w : World}

/-! ## Steps -/

theorem frame_copyTree (h : Steady base part w) {incoming : Path}
    (hincoming : base.Under [stubsName] (incomingName part) incoming) (source : Path) :
    Frame (Files.Inside (entryPlace (base.place w.cwd) (incomingName part))) w
      (Files.copyTree [] source incoming w).2 := by
  have hplace := place_of_under hincoming w.cwd
  refine Files.keeps_copyTreeWithin h.plain [] pathLimit (hplace ▸ List.prefix_refl _)
    (fun turn hturn => ?_) w (.refl _ w)
  obtain ⟨hdir, hclear⟩ := h.turns turn (hincoming.turnsAt hturn)
  exact ⟨hdir, hclear _ (.inr rfl)⟩

/-- What came in takes the place of the stub. -/
theorem confined_moveOver (h : Steady base part w) (hpart : IsName part) {incoming : Path}
    (hincoming : base.Under [stubsName] (incomingName part) incoming)
    (hnew : Valid incoming → ¬ w.root.FileAt (entryPlace (base.place w.cwd) (incomingName part))) :
    Confined (base.place w.cwd) part w
      (Files.stopping (Files.moveOver incoming (stubPath base part)) w).2 := by
  rw [stopping_apply]
  obtain ⟨w₁, hframe, hfile, hrun⟩ := Files.moveOver_steps h.plain incoming
    (fun turn hturn => (h.turns turn hturn).1) (under_stub base hpart)
  rw [place_stubPath base hpart] at hframe hfile hrun
  have h₁ : Confined (base.place w.cwd) part w w₁ :=
    .of_entries (hframe.mono fun t ht => ⟨t, .inl ht, List.prefix_refl _⟩) hfile
  obtain ⟨⟨fault, hrun⟩, -⟩ | ⟨hrun, hfree⟩ := hrun
  · rw [hrun]
    exact h₁
  · rw [hrun]
    refine h₁.trans ?_
    rw [← h₁.frame.cwd] at hnew hfree ⊢
    refine confined_rename (h.confined h₁) hpart hincoming (fun hvalid hold => hnew hvalid ?_)
      fun hvalid hold => ?_
    · obtain ⟨data, mode, hold⟩ := hold
      refine ⟨data, mode, (hframe.apart _ ?_).symm.trans hold⟩
      rintro t rfl
      rw [h₁.frame.cwd]
      exact entries_apart (incomingName_ne part)
    · exact not_fileAt_of_none (hfree hvalid) hold

theorem confined_place (h : Steady base part w) (hpart : IsName part) (source : Path) :
    Confined (base.place w.cwd) part w (place source (stubPath base part) w).2 := by
  have hincoming := (under_stub base hpart).withFileName (isName_incomingName hpart)
  rw [place, (under_stub base hpart).fileName?]
  dsimp only [Option.getD_some]
  rw [← incomingName]
  generalize (stubPath base part).withFileName (incomingName part) = incoming at hincoming ⊢
  refine after_bind (P := Confined (base.place w.cwd) part w)
    (confined_clear_incoming h hincoming) fun _ w₁ hclear h₁ => h₁.trans ?_
  replace hclear := of_adapt_eq_ok hclear
  have hw₁ := h.confined h₁
  have hgone := fun hvalid => Files.get?_of_clear h.plain (fun turn hturn => (h.turns turn hturn).1)
    hincoming hvalid hclear
  rw [place_of_under hincoming, ← h₁.frame.cwd] at hgone
  rw [← h₁.frame.cwd]
  have hcopy := frame_copyTree hw₁ hincoming source
  have h₂ : Confined (base.place w₁.cwd) part w₁ (Files.copyTree [] source incoming w₁).2 :=
    .of_incoming (hcopy.mono fun t ht => ⟨_, rfl, ht.1⟩)
  rw [bind_apply, run_apply]
  generalize Files.copyTree [] source incoming w₁ = step at hcopy h₂
  obtain ⟨result, w₂⟩ := step
  dsimp only at hcopy h₂ ⊢
  refine h₂.trans ?_
  have hw₂ := hw₁.confined h₂
  rw [← h₂.frame.cwd]
  cases result with
  | error fault =>
    refine after_bind ?_ fun _ w₃ _ h₃ => h₃
    have hkeeps : Keeps (Frame (· = entryPlace (base.place w₂.cwd) (incomingName part)) w₂)
        (Files.removeTree incoming) := by
      rw [← place_of_under hincoming]
      refine Files.keeps_removeTree hw₂.plain ?_ (List.prefix_refl _)
      rfl
    exact .of_incoming (hkeeps w₂ (.refl _ w₂))
  | ok _ =>
    refine confined_moveOver hw₂ hpart hincoming fun hvalid hfile => ?_
    obtain ⟨data, mode, hfile⟩ := hfile
    rw [h₂.frame.cwd, hcopy.file _ data mode] at hfile
    · exact not_fileAt_of_none (hgone hvalid) ⟨data, mode, hfile⟩
    · intro t ht hle
      exact ht.2 (ht.1.eq_of_length_le hle.length_le).symm

theorem confined_save {registry : Registry} (h : Steady registry.home part w) :
    Confined (registry.home.place w.cwd) part w (registry.save w).2 := by
  obtain ⟨base, records⟩ := registry
  dsimp only at h ⊢
  have hunder := under_index base
  have hturns : ∀ turn, (base.join fileName).TurnsAt w.cwd turn → w.root.DirAt turn :=
    fun turn hturn => (h.turns turn (hunder.turnsAt hturn)).1
  obtain ⟨parent, w', hplace, hframe, -, hcases⟩ := Files.replace_cases h.plain hunder.isName_entry
    hunder.endsWith hturns (Index.render records).toUTF8
  have hindex : parent ++ [fileName] = indexPlace (base.place w.cwd) :=
    hplace.symm.trans (hunder.place w.cwd)
  obtain ⟨rfl, -⟩ := List.append_inj' hindex rfl
  have hsame : w'.root.get? (indexPlace (base.place w.cwd))
      = w.root.get? (indexPlace (base.place w.cwd)) := by
    refine (hframe (base.place w.cwd ++ [""]) (List.prefix_append _ _)).apart _ ?_
    rintro t rfl
    rw [indexPlace, List.prefix_append_right_inj, List.prefix_append_right_inj]
    decide
  have hmade : Confined (base.place w.cwd) part w w' := by
    refine .of_index (hframe _ (List.prefix_append _ _)) ?_ ?_ fun _ => hsame
    · rw [FileAt, FileAt, hsame]
      exact id
    · rw [DirAt, DirAt, hsame]
      exact id
  rw [save, adapt_apply, Registry.indexPath]
  dsimp only
  obtain ⟨fault, hrun⟩ | ⟨hnot, hdir, -, hrun⟩ := hcases
  · rw [hrun]
    exact hmade
  · rw [hplace] at hnot
    rw [hrun, hplace]
    have hfile : (w'.put (base.place w.cwd ++ [fileName])
        (.file (Index.render records).toUTF8 false)).root.FileAt (indexPlace (base.place w.cwd)) :=
      ⟨_, _, ((hframe _ (List.prefix_refl _)).plain h.plain).get?_alter_self hdir⟩
    refine hmade.trans (.of_index ?_ (fun _ => hfile) (fun _ => hfile.not_dirAt)
      fun hindex => absurd hindex hnot)
    refine (Frame.refl (· = indexPlace (base.place w.cwd)) w').put rfl (List.prefix_refl _) ?_
      (plain_file _ _)
    rw [indexPlace, List.getLast?_concat]
    rintro name ⟨⟩
    exact hunder.isName_entry

/-! ## Stores -/

end Registry

namespace Work

theorem registry_apply (site : Site) : registry site = (.ok site.registry, site) := rfl

theorem changeRegistry_apply (change : Registry → Registry) (site : Site) :
    changeRegistry change site = (.ok (), { site with registry := change site.registry }) := rfl

theorem liftM_apply {α : Type} (x : Action Failure α) (site : Site) :
    (liftM x : Work α) site = ((x site.world).1, { site with world := (x site.world).2 }) := rfl

end Work

namespace Registry

section

variable {I : World → Prop} {site : Site}

/-- A site on the way through the change of a stub: the home is the same, and a property of the
world is kept. -/
structure Underway (base : Path) (I : World → Prop) (site : Site) : Prop where
  home : site.registry.home = base
  world : I site.world

theorem keeps_onWorld {α : Type} {x : Action Failure α} (hx : Keeps I x) :
    Keeps (Underway base I) (Work.onWorld x) := fun site hsite =>
  ⟨hsite.home, hx site.world hsite.world⟩

theorem keeps_changeRegistry {change : Registry → Registry}
    (hhome : ∀ registry, (change registry).home = registry.home) :
    Keeps (Underway base I) (Work.changeRegistry change) := fun site hsite =>
  ⟨(hhome site.registry).trans hsite.home, hsite.world⟩

theorem upsert_home (registry : Registry) (record : Record) :
    (registry.upsert record).home = registry.home := by
  rw [upsert]
  split <;> rfl

theorem keeps_save (hsave : ∀ registry : Registry, registry.home = base → Keeps I registry.save)
    (record : Record) : Keeps (Underway base I) (do
      (← Work.registry).save
      return record : Work Record) := by
  intro site hsite
  obtain ⟨hhome, hw⟩ := hsite
  rw [bind_apply, Work.registry_apply]
  dsimp only
  rw [bind_pure_apply]
  exact ⟨hhome, hsave site.registry hhome site.world hw⟩

/-- Work on the directory of a stub. -/
theorem underway_directory {α : Type} {name : String} {f : Path → Work α} (hw : I site.world)
    (hf : IsName (directoryName name) → Keeps (Underway site.registry.home I)
      (f (stubPath site.registry.home (directoryName name)))) :
    Underway site.registry.home I ((do
      let directory ← MonadExcept.ofExcept ((← Work.registry).directory name)
      f directory : Work α) site).2 := by
  refine after_bind ⟨rfl, hw⟩ fun registry site' hregistry _ => ?_
  cases hregistry
  cases hdirectory : site.registry.directory name with
  | error failure => exact ⟨rfl, hw⟩
  | ok directory =>
    obtain ⟨hpart, rfl⟩ := directory_eq_ok hdirectory
    exact hf hpart site ⟨rfl, hw⟩

/-- Whether a property holds of a site and is kept by every step on the stub of a name. -/
structure Sustained (I : World → Prop) (name : String) (site : Site) : Prop where
  start : I site.world
  place : ∀ source, IsName (directoryName name) →
    Keeps I (place source (stubPath site.registry.home (directoryName name)))
  clear : IsName (directoryName name) →
    Keeps I (Files.stopping (Files.clear (stubPath site.registry.home (directoryName name))))
  now : Keeps I Files.now
  save : ∀ registry : Registry, registry.home = site.registry.home → Keeps I registry.save

theorem Sustained.install {bundle : Bundle} (h : Sustained I bundle.name site) :
    Underway site.registry.home I (install bundle site).2 := by
  refine underway_directory h.start fun hpart => ?_
  refine (keeps_onWorld (h.place _ hpart)).bind fun _ _ _ _ => ?_
  refine (keeps_onWorld h.now).bind fun _ now _ _ => ?_
  refine (keeps_changeRegistry fun registry => upsert_home registry _).bind fun _ _ _ _ => ?_
  exact keeps_save h.save _

theorem Sustained.uninstall {name : String} (h : Sustained I name site) :
    Underway site.registry.home I (uninstall name site).2 := by
  rw [Registry.uninstall, bind_apply, Work.registry_apply]
  dsimp only
  cases site.registry.find? name with
  | none => exact ⟨rfl, h.start⟩
  | some record =>
    refine underway_directory (f := fun directory => do
      Files.stopping (Files.clear directory)
      Work.changeRegistry (·.erase name)
      (← Work.registry).save
      return record) h.start fun hpart => ?_
    refine (keeps_onWorld (h.clear hpart)).bind fun _ _ _ _ => ?_
    have herase : ∀ registry : Registry, (registry.erase name).home = registry.home := fun _ => rfl
    refine (keeps_changeRegistry herase).bind fun _ _ _ _ => ?_
    exact keeps_save h.save _

end

end Registry

/-- Whether work on the stub of a name keeps what the steps on that stub keep. -/
def Work.Stepwise {α : Type} (name : String) (work : Work α) : Prop :=
  ∀ I site, Registry.Sustained I name site →
    Registry.Underway site.registry.home I (work site).2

theorem Work.Stepwise.failing {α β : Type} {name : String} {work : Work α}
    (h : work.Stepwise name) (failure : Failure) :
    Work.Stepwise name (work >>= fun _ => (throw failure : Work β)) := by
  intro I site hsite
  exact after_bind (h I site hsite) fun _ _ _ h => h

/-- Whether a store keeps what the steps on a stub keep when it installs or removes the stub. -/
structure Store.Stepwise (store : Store) : Prop where
  install : ∀ bundle : Bundle, Work.Stepwise bundle.name (store.install bundle)
  uninstall : ∀ name, Work.Stepwise name (store.uninstall name)

namespace Registry

theorem store_stepwise : store.Stepwise :=
  ⟨fun _ _ _ h => h.install, fun _ _ _ h => h.uninstall⟩

/-! ## Failing stores -/

/-- How far a store gets before it fails. -/
inductive Stage where
  | nothing
  /-- The directory of the stub is in place or gone, but the records do not say so. -/
  | directory
  | everything

/-- The store of the registry, failing at a stage. -/
def failingStore (failure : Failure) : Stage → Store
  | .nothing => { install := fun _ => throw failure, uninstall := fun _ => throw failure }
  | .directory =>
    { install := fun bundle => do
        let directory ← MonadExcept.ofExcept ((← Work.registry).directory bundle.name)
        place bundle.path directory
        throw failure
      uninstall := fun name => do
        let directory ← MonadExcept.ofExcept ((← Work.registry).directory name)
        Files.stopping (Files.clear directory)
        throw failure }
  | .everything =>
    { install := fun bundle => do
        let _ ← install bundle
        throw failure
      uninstall := fun name => do
        let _ ← uninstall name
        throw failure }

theorem failingStore_stepwise (failure : Failure) (stage : Stage) :
    (failingStore failure stage).Stepwise := by
  cases stage with
  | nothing => exact ⟨fun _ _ _ h => ⟨rfl, h.start⟩, fun _ _ _ h => ⟨rfl, h.start⟩⟩
  | directory =>
    constructor
    · intro bundle I site h
      refine underway_directory (f := fun directory => do
        place bundle.path directory
        throw failure) h.start fun hpart => ?_
      exact (keeps_onWorld (h.place _ hpart)).bind fun _ _ _ _ => keeps_throw failure
    · intro name I site h
      refine underway_directory (f := fun directory => do
        Files.stopping (Files.clear directory)
        throw failure) h.start fun hpart => ?_
      exact (keeps_onWorld (h.clear hpart)).bind fun _ _ _ _ => keeps_throw failure
  | everything =>
    exact ⟨fun bundle => (store_stepwise.install bundle).failing failure,
      fun name => (store_stepwise.uninstall name).failing failure⟩

end Registry

/-! ## Confined stores -/

/-- Whether work on the stub of a name changes only what belongs to that stub, however it ends. -/
def Work.Confined {α : Type} (name : String) (work : Work α) : Prop :=
  ∀ site, Registry.Steady site.registry.home (Registry.directoryName name) site.world →
    Registry.Confined (site.registry.home.place site.world.cwd) (Registry.directoryName name)
      site.world (work site).2.world

/-- Whether a store changes only what belongs to a stub when it installs or removes it. -/
structure Store.Confined (store : Store) : Prop where
  install : ∀ bundle : Bundle, Work.Confined bundle.name (store.install bundle)
  uninstall : ∀ name, Work.Confined name (store.uninstall name)

namespace Registry

/-- The steps on a stub change only what belongs to it. -/
theorem sustained_confined {name : String} {site : Site}
    (h : Steady site.registry.home (directoryName name) site.world) :
    Sustained (Confined (site.registry.home.place site.world.cwd) (directoryName name) site.world)
      name site where
  start := .refl _ _ _
  place source hpart := keeps_confined h fun _ hw => confined_place hw hpart source
  clear hpart := keeps_confined h fun _ hw => confined_clear_stub hw hpart
  now := keeps_confined h fun _ _ => .of_root_eq rfl rfl
  save registry hhome := by
    rw [← hhome] at h ⊢
    exact keeps_confined h fun _ hw => confined_save hw

end Registry

theorem Store.Stepwise.confined {store : Store} (h : store.Stepwise) : store.Confined :=
  ⟨fun bundle site hsite => (h.install bundle _ site (Registry.sustained_confined hsite)).world,
    fun name site hsite => (h.uninstall name _ site (Registry.sustained_confined hsite)).world⟩

namespace Registry

/-- The store of the registry changes only what belongs to the stub. -/
theorem store_confined : store.Confined := store_stepwise.confined

theorem failingStore_confined (failure : Failure) (stage : Stage) :
    (failingStore failure stage).Confined := (failingStore_stepwise failure stage).confined

end Registry

end StubManager
