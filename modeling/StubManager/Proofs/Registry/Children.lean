import StubManager.Proofs.FileTree.Lodging
import StubManager.Proofs.Registry.Naming
import StubManager.Proofs.Registry.Placing

/-!
# Stubs are installed side by side

A name is refused unless it is one plain part of a path (`Bundle.checkName_eq_ok_iff`), and the
directory of one that is not refused is a child of the directory of stubs (`directory_isChild`). So
whatever a stub is staged from, and wherever its name comes from, it is installed among the stubs
(`stage_encloses`).
-/

namespace StubManager

open Node World Running

theorem Path.components_join {p : Path} {last name : String} (hlast : IsName last)
    (hends : p.EndsWith last) (hname : IsName name) :
    (p.join name).components = p.components ++ [.name name] := by
  have hparts := parts_join_of_endsWith hlast hends hname
  have hup : name.toList ≠ ['.', '.'] := fun heq => hname.2.2.1 (String.toList_inj.1 heq)
  have hpart : ([name.toList].filter isComponent).map componentOf = [.name name] := by
    simp [isComponent_of_isName hname, componentOf, hup, String.ofList_toList]
  rw [components, components, hparts, isAbsolute_join p hname]
  cases hp : p.parts with
  | nil => exact absurd hp p.parts_ne_nil
  | cons first more =>
    dsimp only [List.cons_append]
    rw [List.filter_append, List.map_append, hpart, List.append_assoc]

/-- Whether a path is one proper name behind another path. -/
structure Path.IsChild (p child : Path) : Prop where
  parent : child.parent? = some p
  name : ∃ name, IsName name ∧ child.fileName? = some name ∧
    child.components = p.components ++ [.name name]

theorem Path.isChild_join {p : Path} {last name : String} (hlast : IsName last)
    (hends : p.EndsWith last) (hname : IsName name) : p.IsChild (p.join name) where
  parent := parent?_join hlast hends hname
  name := ⟨name, hname, fileName?_of_endsWith hname (endsWith_join p hname),
    components_join hlast hends hname⟩

/-- The names that are not refused. -/
theorem Bundle.checkName_eq_ok_iff {label name : String} :
    checkName label name = .ok () ↔ IsName name := by
  rw [checkName, ← isValidName_iff]
  by_cases h : isValidName name <;> simp [h]

/-- Whatever a stub is staged from, it goes by a name that is not refused. -/
theorem Bundle.named_of_stage {source : StubSource} {bundle : Bundle} {w w' : World}
    (h : stage source w = (.ok bundle, w')) :
    (source.name <|> bundle.metadata.name <|> source.directory.fileName?) = some bundle.name ∧
      IsName bundle.name := by
  obtain ⟨staging, w₁, -, hfill⟩ := of_stage_eq_ok h
  obtain ⟨hname, hvalid⟩ := named_of_fill hfill
  exact ⟨hname, isValidName_iff.1 hvalid⟩

namespace Registry

/-- The directory of a stub is a child of the directory of stubs. -/
theorem directory_isChild (registry : Registry) {name : String} (h : IsName name) :
    ∃ directory, registry.directory name = .ok directory ∧
      (registry.home.join stubsName).IsChild directory :=
  ⟨_, directory_of_isName registry h, Path.isChild_join (by decide)
    (Path.endsWith_join _ (by decide)) (isName_directoryName h)⟩

/-- Installing a stub changes the index and what is among the stubs. -/
theorem encloses_install (registry : Registry) (bundle : Bundle) {world : World}
    (hsteady : Steady registry.home (directoryName bundle.name) world) :
    Frame (fun place => place = (registry.home.join fileName).place world.cwd ∨
        place = (registry.home.join stubsName).place world.cwd)
      world (install bundle { world, registry }).2.world := by
  have hconfined := store_confined.install bundle { world, registry } hsteady
  refine hconfined.frame.mono ?_
  rw [Path.place_join _ (by decide), Path.place_join _ (by decide)]
  rintro place (rfl | rfl | rfl)
  · exact ⟨_, .inl rfl, List.prefix_refl _⟩
  · exact ⟨_, .inr rfl, [directoryName bundle.name], (entryPlace_eq _ _).symm⟩
  · exact ⟨_, .inr rfl, [incomingName (directoryName bundle.name)], (entryPlace_eq _ _).symm⟩

/-- A name is accepted if it is not empty, neither of the two names that paths have for directories
that are there already, and holds no separator; and the directory of an accepted name is a child of
the directory of stubs. A stub that is staged goes by the name it was given, else by the one of its
metadata, else by the one of its directory, and always by an accepted one; so its directory is such
a child, and wherever the home is reached over directories that a change of the stub leaves alone,
installing it changes nothing but the index and what is among the stubs. -/
theorem stage_encloses (registry : Registry) :
    (∀ label name, Bundle.checkName label name = .ok () ↔
      name ≠ "" ∧ name ≠ "." ∧ name ≠ ".." ∧ '/' ∉ name.toList) ∧
    (∀ label name, Bundle.checkName label name = .ok () →
      ∃ directory, registry.directory name = .ok directory ∧
        (registry.home.join stubsName).IsChild directory) ∧
    ∀ source bundle w w', Bundle.stage source w = (.ok bundle, w') →
      (source.name <|> bundle.metadata.name <|> source.directory.fileName?) = some bundle.name ∧
      (∃ directory, registry.directory bundle.name = .ok directory ∧
        (registry.home.join stubsName).IsChild directory) ∧
      ∀ world, Steady registry.home (directoryName bundle.name) world →
        Frame (fun place => place = (registry.home.join fileName).place world.cwd ∨
            place = (registry.home.join stubsName).place world.cwd)
          world (install bundle { world, registry }).2.world := by
  refine ⟨fun _ _ => Bundle.checkName_eq_ok_iff,
    fun _ _ h => directory_isChild registry (Bundle.checkName_eq_ok_iff.1 h),
    fun source bundle w w' hstage => ?_⟩
  obtain ⟨hname, haccepted⟩ := Bundle.named_of_stage hstage
  exact ⟨hname, directory_isChild registry haccepted,
    fun world hsteady => encloses_install registry bundle hsteady⟩

/-- A directory with a stub that goes by a name of its own. -/
def namingWorld : World where
  root := .directory
    [("src", .directory [("modules.json", .file "[\"a:b\",[\"rp2\"]]".toUTF8 false)]),
      ("tmp", .directory [])]
  cwd := []
  tempDir := ⟨"/tmp"⟩
  clock := default

theorem plain_namingWorld : namingWorld.root.Plain := by
  refine plain_directory_iff.2 ⟨?_, (by decide : ["src", "tmp"].Pairwise (· < ·))⟩
  simp [plain_directory_iff, plain_file, IsName]

theorem stage_encloses_of_metadata :
    ∃ bundle w', Bundle.stage { directory := ⟨"/src"⟩, origin := "src" } namingWorld
        = (.ok bundle, w') ∧ bundle.name = "a:b" ∧
      (Path.mk "home/stubs").IsChild ⟨"home/stubs/a_b"⟩ ∧
      Frame (fun place => place = ["home", "registry.yaml"] ∨ place = ["home", "stubs"])
        namingWorld (install bundle
          { world := namingWorld, registry := { home := ⟨"home"⟩ } }).2.world := by
  have hstaged : (Bundle.stage { directory := ⟨"/src"⟩, origin := "src" }
      namingWorld).1.toOption.map Bundle.name = some "a:b" := by decide +kernel
  generalize hrun : Bundle.stage { directory := ⟨"/src"⟩, origin := "src" } namingWorld = run
    at hstaged
  obtain ⟨_ | bundle, w'⟩ := run
  · cases hstaged
  have hname : bundle.name = "a:b" := Option.some.inj hstaged
  obtain ⟨-, ⟨directory, hdirectory, hchild⟩, hframe⟩ :=
    (stage_encloses { home := ⟨"home"⟩ }).2.2 _ bundle namingWorld w' hrun
  have hpath : Registry.directory { home := ⟨"home"⟩ } "a:b" = .ok ⟨"home/stubs/a_b"⟩ := by
    decide +kernel
  rw [hname, hpath] at hdirectory
  cases hdirectory
  have hstraight : ".." ∉ (⟨"home"⟩ : Path).names := by decide +kernel
  have hsteady : Steady ⟨"home"⟩ (directoryName bundle.name) namingWorld :=
    ⟨plain_namingWorld, fun turn hturn =>
      absurd hturn (Path.not_turnsAt_of_not_mem hstraight _ turn)⟩
  exact ⟨bundle, w', rfl, hname, hchild, hframe namingWorld hsteady⟩

end Registry

end StubManager
