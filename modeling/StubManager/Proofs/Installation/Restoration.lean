import StubManager.Installation.Change
import StubManager.Proofs.FileTree.Replacing
import StubManager.Proofs.Registry.Store
import StubManager.Proofs.Transaction.Beginning

/-!
# Failed changes

Adding and removing a stub are all or nothing: after a failure the index, the directory of the stub
and the manifest are again what they were (`restored_of_error`), however the store failed. The paths
may not turn back at directories that the change itself moves: a rollback that goes over such a path
does not find what it should bring back (`lost_of_turn`).
-/

namespace StubManager

open Node World Registry Running Transaction

/-! ## Planning and saving -/

/-- Loading a text changes nothing, and succeeds only for a file. -/
theorem Artifact.load_cases (p : Path) (anchor : String) (w : World) :
    (∃ failure, Artifact.load p anchor w = (.error failure, w)) ∨
      ∃ artifact, Artifact.load p anchor w = (.ok artifact, w) ∧
        ∃ data mode, w.find? p = some (.file data mode) := by
  rw [Artifact.load, bind_apply, adapt_apply, Files.readText, bind_apply]
  obtain ⟨fault, h⟩ | ⟨data, mode, hfile, h⟩ := Files.read_cases (w := w) p
  · rw [h]
    exact .inl ⟨_, rfl⟩
  · rw [h]
    dsimp only
    cases String.fromUTF8? data with
    | none => exact .inl ⟨_, rfl⟩
    | some text => exact .inr ⟨_, rfl, data, mode, hfile⟩

theorem Manifest.plan_cases (manifest : Manifest) (change : ChangeSet) (w : World) :
    (∃ failure, manifest.plan change w = (.error failure, w)) ∨
      ∃ planned, manifest.plan change w = (.ok planned, w) ∧
        ∃ data mode, w.find? manifest.path = some (.file data mode) := by
  rw [Manifest.plan, bind_apply, Manifest.load]
  obtain ⟨failure, h⟩ | ⟨artifact, h, hfile⟩ := Artifact.load_cases manifest.path manifest.anchor w
  · rw [h]
    exact .inl ⟨_, rfl⟩
  · rw [h]
    dsimp only
    cases artifact.apply change with
    | error failure => exact .inl ⟨_, rfl⟩
    | ok updated => exact .inr ⟨_, rfl, hfile⟩

namespace Work

/-- Planning changes nothing; a plan is for the manifest, which is a file. -/
theorem planEdit_cases (manifest : Option Manifest) (change : ChangeSet) (site : Site) :
    (∃ failure, planEdit manifest change site = (.error failure, site)) ∨
      ∃ edit, planEdit manifest change site = (.ok edit, site) ∧
        (∀ m ∈ manifest, ∃ data mode, site.world.find? m.path = some (.file data mode)) ∧
        ∀ p ∈ edit.map (·.2), ∃ m ∈ manifest, p = m.path := by
  cases manifest with
  | none => exact .inr ⟨none, rfl, by simp, by simp⟩
  | some manifest =>
    rw [planEdit, bind_apply, liftM_apply]
    obtain ⟨failure, h⟩ | ⟨planned, h, hfile⟩ := manifest.plan_cases change site.world
    · rw [h]
      exact .inl ⟨_, rfl⟩
    · rw [h]
      refine .inr ⟨_, rfl, ?_, fun p hp => ?_⟩
      · rintro _ ⟨⟩
        exact hfile
      · simp only [Option.map_map, Option.mem_def, Option.map_eq_some_iff] at hp
        obtain ⟨artifact, -, rfl⟩ := hp
        exact ⟨manifest, rfl, rfl⟩

variable {base : Path} {part : String} {w w' : World}

/-- A file that is held is saved as a whole or left as it is. -/
theorem save_cases {p : Path} (h : Held base part (some p) w w') (hplain : w.root.Plain)
    (hp : Editable base part w p) (artifact : Artifact) :
    (∃ failure, artifact.save p w' = (.error failure, w')) ∨
      ∃ parent name data, p.place w.cwd = parent ++ [name] ∧
        artifact.save p w' = (.ok (), w'.put (parent ++ [name]) (.file data false)) := by
  obtain ⟨-, name, -, hname, hends⟩ := hp.exists_name hplain
  obtain ⟨-, data, mode, hfile⟩ := h.edited p rfl
  obtain ⟨parent, w'', hplace, -, hsame, hcases⟩ := Files.replace_cases h.plain hname hends
    (h.turns_of_editable hplain hp) artifact.text.toUTF8
  rw [h.cwd] at hplace hcases
  rw [hplace] at hfile
  obtain rfl := hsame (dirAt_of_get? hfile)
  rw [Artifact.save, adapt_apply]
  obtain ⟨fault, hrun⟩ | ⟨-, -, -, hrun⟩ := hcases
  · rw [hrun]
    exact .inl ⟨_, rfl⟩
  · rw [hrun, hplace]
    exact .inr ⟨parent, name, _, rfl, rfl⟩

/-- Saving leaves a transaction able to be taken back, and changes nothing if it fails. -/
theorem saveEdit_cases {edit : Option (Artifact × Path)} (site : Site) (hplain : w.root.Plain)
    (hedited : ∀ p ∈ edit.map (·.2), Editable base part w p)
    (h : Held base part (edit.map (·.2)) w site.world) :
    (∃ failure, saveEdit edit site = (.error failure, site)) ∨
      ∃ saved w', saveEdit edit site = (.ok saved, { site with world := w' }) ∧
        ∀ t, Begun base part (edit.map (·.2)) w site.world t →
          Begun base part (edit.map (·.2)) w w' t := by
  cases edit with
  | none => exact .inr ⟨false, site.world, rfl, fun _ => id⟩
  | some edit =>
    obtain ⟨artifact, p⟩ := edit
    rw [saveEdit, bind_apply, liftM_apply]
    obtain ⟨failure, hrun⟩ | ⟨parent, name, data, hplace, hrun⟩ :=
      save_cases h hplain (hedited p rfl) artifact
    · rw [hrun]
      exact .inl ⟨failure, rfl⟩
    · rw [hrun]
      exact .inr ⟨true, _, rfl, fun t ht => ht.put hplace data false⟩

/-! ## Protected changes -/

/-- A protected change that fails is taken back, if all that it does leaves the transaction able
to be. -/
theorem recovered_of_protecting {α : Type} {edited : Option Path} {site site' : Site}
    {footprint : Footprint} {body : Work α} {failure : Failure}
    (hout : Outset base part site.world)
    (hedited : ∀ p ∈ edited, Editable base part site.world p)
    (hfiles : footprint.files = [base.join fileName])
    (hdirectory : footprint.directory = stubPath base part)
    (hbody : ∀ t w', Begun base part edited site.world w' t →
      Begun base part edited site.world (body { site with world := w' }).2.world t)
    (h : protecting (footprint.targets edited) body site = (.error failure, site')) :
    Recovered base part none site.world site'.world ∨
      Recovered base part edited site.world site'.world := by
  obtain ⟨result, w', hbegin, hresult⟩ := begin_cases hout hedited
  rw [protecting, bind_apply, liftM_apply, Footprint.targets, hfiles, hdirectory,
    List.map_singleton, List.singleton_append, List.cons_append, List.cons_append, List.nil_append,
    hbegin] at h
  cases result with
  | error failure =>
    cases h
    exact .inl hresult
  | ok t =>
    dsimp only at h hresult
    have hstep := hbody t w' hresult
    generalize body { site with world := w' } = step at h hstep
    obtain ⟨result, site''⟩ := step
    cases result with
    | ok a => cases h
    | error failure' =>
      cases h
      exact .inr (hstep.recovered hout hedited)

end Work

namespace Installation

/-! ## Changes that can be undone -/

/-- Whether a change of a stub can be undone: the tree is one of files and directories, the
manifest lies outside of the home, and the paths of both turn back only at directories that the
change does not move. -/
structure Undoable (manifest : Option Manifest) (name : String) (site : Site) : Prop where
  plain : site.world.root.Plain
  home : ∀ turn, site.registry.home.TurnsAt site.world.cwd turn → site.world.root.DirAt turn ∧
    Clear (site.registry.home.place site.world.cwd) (directoryName name) site.world turn
  outside : ∀ m ∈ manifest,
    ¬ site.registry.home.place site.world.cwd <+: m.path.place site.world.cwd
  clear : ∀ m ∈ manifest, ∀ turn, m.path.TurnsAt site.world.cwd turn →
    Clear (site.registry.home.place site.world.cwd) (directoryName name) site.world turn

/-- Whether the index, the directory of a stub and the manifest are what they were, up to the
permissions of the two files. -/
structure Restored (manifest : Option Manifest) (name : String) (site site' : Site) : Prop where
  index : (site'.world.find? site.registry.indexPath).map withoutMode
    = (site.world.find? site.registry.indexPath).map withoutMode
  directory : ∀ directory, site.registry.directory name = .ok directory →
    site'.world.find? directory = site.world.find? directory
  manifest : ∀ m ∈ manifest, (site'.world.find? m.path).map withoutMode
    = (site.world.find? m.path).map withoutMode

variable {manifest : Option Manifest} {name : String} {site site' : Site}

theorem Restored.of_world_eq (h : site'.world = site.world) :
    Restored manifest name site site' := by
  refine ⟨?_, fun _ _ => ?_, fun _ _ => ?_⟩ <;> rw [h]

/-- Paths that never turn back are no obstacle. -/
theorem Undoable.of_straight (hplain : site.world.root.Plain)
    (hhome : ".." ∉ site.registry.home.names) (hmanifest : ∀ m ∈ manifest, ".." ∉ m.path.names)
    (houtside : ∀ m ∈ manifest,
      ¬ site.registry.home.place site.world.cwd <+: m.path.place site.world.cwd) :
    Undoable manifest name site where
  plain := hplain
  home turn hturn := absurd hturn (Path.not_turnsAt_of_not_mem hhome _ turn)
  outside := houtside
  clear m hm turn hturn := absurd hturn (Path.not_turnsAt_of_not_mem (hmanifest m hm) _ turn)

theorem Undoable.outset (h : Undoable manifest name site) (hname : IsName (directoryName name)) :
    Outset site.registry.home (directoryName name) site.world := ⟨h.plain, hname, h.home⟩

theorem Undoable.editable (h : Undoable manifest name site) {m : Manifest} (hm : m ∈ manifest)
    (hfile : ∃ data mode, site.world.find? m.path = some (.file data mode)) :
    Editable site.registry.home (directoryName name) site.world m.path :=
  ⟨h.outside m hm, h.clear m hm, hfile⟩

/-- What was recovered is found again. -/
theorem restored_of_recovered {edited : Option Path} (h : Undoable manifest name site)
    (hname : IsName (directoryName name))
    (hfile : ∀ m ∈ manifest, ∃ data mode, site.world.find? m.path = some (.file data mode))
    (hrecovered : Recovered site.registry.home (directoryName name) edited site.world
      site'.world) : Restored manifest name site site' := by
  have hout := h.outset hname
  have hheld := hrecovered.held
  refine ⟨?_, fun directory hdirectory => ?_, fun m hm => ?_⟩
  · rw [Registry.indexPath]
    by_cases hvalid : Valid (site.registry.home.join fileName)
    · rw [hheld.find?_index hout hvalid, hout.find?_index hvalid]
      exact hrecovered.index hvalid
    · rw [find?_of_not_valid h.plain hvalid, find?_of_not_valid hheld.plain hvalid]
  · obtain ⟨-, rfl⟩ := directory_eq_ok hdirectory
    by_cases hvalid : Valid (stubPath site.registry.home (directoryName name))
    · rw [hheld.find?_stub hout hvalid, hout.find?_stub hvalid]
      exact hrecovered.stub hvalid
    · rw [find?_of_not_valid h.plain hvalid, find?_of_not_valid hheld.plain hvalid]
  · have hp := h.editable hm (hfile m hm)
    obtain ⟨data, mode, hold⟩ := hfile m hm
    have hnode := (locate_of_find? h.plain hold true).2
    rw [hheld.find?_of_editable h.plain hp, hold, ← hnode]
    by_cases hsame : ∃ p ∈ edited, m.path.place site.world.cwd = p.place site.world.cwd
    · obtain ⟨p, hp, heq⟩ := hsame
      rw [heq]
      exact hrecovered.file p hp
    · rw [hnode, hheld.outside _ data mode hp.outside (fun p hp heq => hsame ⟨p, hp, heq⟩) hnode]

/-! ## Operations -/

variable {store : Store} {failure : Failure}

/-- Every path that an edit is saved to is one that can be brought back. -/
theorem Undoable.editable_of_edit (h : Undoable manifest name site)
    {edit : Option (Artifact × Path)}
    (hfile : ∀ m ∈ manifest, ∃ data mode, site.world.find? m.path = some (.file data mode))
    (hedit : ∀ p ∈ edit.map (·.2), ∃ m ∈ manifest, p = m.path) :
    ∀ p ∈ edit.map (·.2), Editable site.registry.home (directoryName name) site.world p := by
  intro p hp
  obtain ⟨m, hm, rfl⟩ := hedit p hp
  exact h.editable hm (hfile m hm)

/-- A listing that fails changes nothing. -/
theorem restored_of_listInstalled (h : Undoable manifest name site) {record : Record}
    (hrun : listInstalled manifest record site = (.error failure, site')) :
    Restored manifest name site site' := by
  rw [listInstalled, bind_apply] at hrun
  obtain ⟨_, hplan⟩ | ⟨edit, hplan, hfile, hedit⟩ :=
    Work.planEdit_cases manifest (.adding [record.name]) site
  · rw [hplan] at hrun
    cases hrun
    exact .of_world_eq rfl
  · rw [hplan] at hrun
    dsimp only at hrun
    have hedited := h.editable_of_edit hfile hedit
    rw [bind_apply] at hrun
    obtain ⟨_, hsave⟩ | ⟨saved, w', hsave, -⟩ :=
      Work.saveEdit_cases site h.plain hedited (.of_editable h.plain hedited)
    · rw [hsave] at hrun
      cases hrun
      exact .of_world_eq rfl
    · rw [hsave] at hrun
      cases hrun

/-- A change that is planned and then made under protection. -/
theorem restored_of_protecting {α : Type} (h : Undoable manifest name site) {change : ChangeSet}
    {body : Option (Artifact × Path) → Work α}
    (hbody : ∀ edit t w',
      (∀ p ∈ edit.map (·.2),
        Editable site.registry.home (directoryName name) site.world p) →
      Outset site.registry.home (directoryName name) site.world →
      Begun site.registry.home (directoryName name) (edit.map (·.2)) site.world w' t →
      Begun site.registry.home (directoryName name) (edit.map (·.2)) site.world
        (body edit { site with world := w' }).2.world t)
    (hrun : (do
      let edit ← Work.planEdit manifest change
      let footprint ← MonadExcept.ofExcept ((← Work.registry).footprint name)
      Work.protecting (footprint.targets (edit.map (·.2))) (body edit) : Work α) site
        = (.error failure, site')) :
    Restored manifest name site site' := by
  rw [bind_apply] at hrun
  obtain ⟨_, hplan⟩ | ⟨edit, hplan, hfile, hedit⟩ := Work.planEdit_cases manifest change site
  · rw [hplan] at hrun
    cases hrun
    exact .of_world_eq rfl
  rw [hplan] at hrun
  dsimp only at hrun
  rw [bind_apply, Work.registry_apply] at hrun
  dsimp only at hrun
  rw [bind_apply] at hrun
  cases hfootprint : site.registry.footprint name with
  | error _ =>
    rw [hfootprint] at hrun
    cases hrun
    exact .of_world_eq rfl
  | ok footprint =>
    rw [hfootprint] at hrun
    obtain ⟨hname, hfiles, hdirectory⟩ := Registry.footprint_eq_ok hfootprint
    have hout := h.outset hname
    have hedited := h.editable_of_edit hfile hedit
    obtain hrecovered | hrecovered := Work.recovered_of_protecting hout hedited hfiles hdirectory
      (fun t w' => hbody edit t w' hedited hout) hrun
    · exact restored_of_recovered h hname hfile hrecovered
    · exact restored_of_recovered h hname hfile hrecovered

/-- A store leaves a transaction able to be taken back. -/
theorem begun_store {α : Type} {work : Work α} (hwork : work.Confined name) {w w' : World}
    {edited : Option Path} {t : Transaction} {registry : Registry}
    (hout : Outset registry.home (directoryName name) w)
    (h : Begun registry.home (directoryName name) edited w w' t) :
    Begun registry.home (directoryName name) edited w
      (work { world := w', registry }).2.world t := by
  have hconfined := hwork { world := w', registry } (h.held.steady hout)
  rw [h.held.cwd] at hconfined
  exact h.confined hconfined

/-- An installation that fails is taken back. -/
theorem restored_of_installBundle (hstore : store.Confined) {bundle : Bundle}
    (h : Undoable manifest bundle.name site)
    (hrun : installBundle store manifest bundle site = (.error failure, site')) :
    Restored manifest bundle.name site site' := by
  refine restored_of_protecting h (fun edit t w' hedited hout hbegun => ?_) hrun
  refine after_bind (P := fun site'' : Site => Begun site.registry.home (directoryName bundle.name)
    (edit.map (·.2)) site.world site''.world t) ?_ fun record site'' _ hbegun' => ?_
  · exact begun_store (hstore.install bundle) hout hbegun
  · rw [bind_pure_apply]
    obtain ⟨_, hsave⟩ | ⟨saved, w'', hsave, hbegun''⟩ :=
      Work.saveEdit_cases site'' h.plain hedited hbegun'.held
    · rw [hsave]
      exact hbegun'
    · rw [hsave]
      exact hbegun'' t hbegun'

/-- An addition that fails is taken back. -/
theorem restored_of_register (hstore : store.Confined) {bundle : Bundle} {force : Bool}
    (h : Undoable manifest bundle.name site)
    (hrun : register store manifest bundle force site = (.error failure, site')) :
    Restored manifest bundle.name site site' := by
  rw [register, bind_apply, Work.registry_apply] at hrun
  dsimp only at hrun
  cases hfind : site.registry.find? bundle.name with
  | none =>
    rw [hfind] at hrun
    exact restored_of_installBundle hstore h hrun
  | some record =>
    rw [hfind] at hrun
    cases force with
    | false => exact restored_of_listInstalled h hrun
    | true => exact restored_of_installBundle hstore h hrun

/-- A removal that fails is taken back. -/
theorem restored_of_remove (hstore : store.Confined) (h : Undoable manifest name site)
    (hrun : remove store manifest name site = (.error failure, site')) :
    Restored manifest name site site' := by
  rw [remove, bind_apply, Work.registry_apply] at hrun
  dsimp only at hrun
  split at hrun
  · cases hrun
    exact .of_world_eq rfl
  · refine restored_of_protecting h (fun edit t w' hedited hout hbegun => ?_) hrun
    rw [bind_apply]
    obtain ⟨_, hsave⟩ | ⟨saved, w'', hsave, hbegun'⟩ :=
      Work.saveEdit_cases { site with world := w' } h.plain hedited hbegun.held
    · rw [hsave]
      exact hbegun
    · rw [hsave]
      dsimp only
      rw [bind_pure_apply]
      exact begun_store (hstore.uninstall name) hout (hbegun' t hbegun)

/-- A change that fails is taken back, however the store fails: the index, the directory of the
stub and the manifest are what they were. -/
theorem restored_of_error (manifest : Option Manifest) (site : Site)
    (hstore : store = Registry.store ∨ (∃ failure stage, store = failingStore failure stage) ∨
      store.Confined) :
    (∀ (bundle : Bundle) (force : Bool) (failure : Failure) (site' : Site),
      Undoable manifest bundle.name site →
      register store manifest bundle force site = (.error failure, site') →
      Restored manifest bundle.name site site') ∧
    ∀ (name : String) (failure : Failure) (site' : Site),
      Undoable manifest name site →
      remove store manifest name site = (.error failure, site') →
      Restored manifest name site site' := by
  have hconfined : store.Confined := by
    obtain rfl | ⟨failure, stage, rfl⟩ | h := hstore
    · exact store_confined
    · exact failingStore_confined failure stage
    · exact h
  constructor
  · intro bundle force failure site' h hrun
    exact restored_of_register hconfined h hrun
  · intro name failure site' h hrun
    exact restored_of_remove hconfined h hrun

/-- A home with the stub `x`, a list beside it, and a copy of another stub. -/
def smallSite (home list : String) : Site where
  world :=
    { root := .directory [
        ("home", .directory [("stubs", .directory [
          (incomingName "x", .directory []), (previousName "x", .directory []),
          ("x", .directory [])])]),
        ("list.py", .file list.toUTF8 false),
        ("staging", .directory [("stub", .directory [("pin.pyi", .file .empty false)])])]
      cwd := []
      tempDir := ⟨"tmp"⟩
      clock := default }
  registry := { home := ⟨home⟩, records := [{ (default : Record) with name := "x" }] }

/-- The other stub, under the same name. -/
def smallBundle : Bundle where
  name := "x"
  origin := "catalog"
  staging := ⟨"staging"⟩
  metadata := { firmware := { name := "firmware" } }

def manifestAt (path : String) : Manifest := { path := ⟨path⟩, anchor := "stubs" }

theorem smallSite_plain (home list : String) : (smallSite home list).world.root.Plain := by
  refine plain_directory_iff.2
    ⟨?_, (by decide : ["home", "list.py", "staging"].Pairwise (· < ·))⟩
  have hstubs : (directory [(incomingName "x", directory []), (previousName "x", directory []),
      ("x", directory [])]).Plain := by
    refine plain_directory_iff.2 ⟨?_, by decide +kernel⟩
    simp [plain_empty, incomingName, previousName, IsName]
  simp [plain_directory_iff, plain_file, IsName, hstubs]

theorem restored_of_late_failure :
    Restored (some (manifestAt "list.py")) "x" (smallSite "home" "stubs = []\n")
        (register (failingStore (.fileSystem "late") .directory) (some (manifestAt "list.py"))
          smallBundle true (smallSite "home" "stubs = []\n")).2 ∧
      Restored (some (manifestAt "list.py")) "x" (smallSite "home" "stubs = [\"x\"]\n")
        (remove (failingStore (.fileSystem "late") .everything) (some (manifestAt "list.py")) "x"
          (smallSite "home" "stubs = [\"x\"]\n")).2 := by
  have hhome : ".." ∉ (⟨"home"⟩ : Path).names := by decide +kernel
  have hmanifest : ".." ∉ (⟨"list.py"⟩ : Path).names := by decide +kernel
  have houtside : ¬ Path.place [] ⟨"home"⟩ <+: Path.place [] ⟨"list.py"⟩ := by decide +kernel
  have h : ∀ list, Undoable (some (manifestAt "list.py")) "x" (smallSite "home" list) := by
    intro list
    refine .of_straight (smallSite_plain _ _) hhome ?_ ?_
    · rintro _ ⟨⟩
      exact hmanifest
    · rintro _ ⟨⟩
      exact houtside
  constructor
  · refine (restored_of_error _ _ (.inr (.inl ⟨_, _, rfl⟩))).1 smallBundle true
      (.fileSystem "late") _ (h _) (Prod.ext ?_ rfl)
    decide +kernel
  · refine (restored_of_error _ _ (.inr (.inl ⟨_, _, rfl⟩))).2 "x" (.fileSystem "late") _ (h _)
      (Prod.ext ?_ rfl)
    decide +kernel

/-- A manifest is lost if its path turns back at a directory that the change moves. The stub itself
is lost if that of the home does. -/
theorem lost_of_turn :
    (∀ entry ∈ ["x", incomingName "x", previousName "x"],
      ∀ path ∈ ["home/stubs/" ++ entry ++ "/../../../list.py"],
        ¬ Path.place [] ⟨"home"⟩ <+: Path.place [] ⟨path⟩ ∧
        ((smallSite "home" "stubs = []\n").world.find? ⟨path⟩).isSome ∧
        (register (failingStore (.fileSystem "late") .everything) (some (manifestAt path))
          smallBundle true (smallSite "home" "stubs = []\n")).1 = .error (.fileSystem "late") ∧
        ((register (failingStore (.fileSystem "late") .everything) (some (manifestAt path))
          smallBundle true (smallSite "home" "stubs = []\n")).2.world.find? ⟨path⟩).isNone) ∧
    ∀ home ∈ ["home/stubs/x/../.."],
      ((smallSite home "stubs = []\n").world.find? ⟨home ++ "/stubs/x"⟩).isSome ∧
      (remove (failingStore (.fileSystem "early") .nothing) none "x"
        (smallSite home "stubs = []\n")).1 = .error (.fileSystem "early") ∧
      ((remove (failingStore (.fileSystem "early") .nothing) none "x"
        (smallSite home "stubs = []\n")).2.world.find? ⟨home ++ "/stubs/x"⟩).isNone := by
  decide +kernel

end Installation

end StubManager
