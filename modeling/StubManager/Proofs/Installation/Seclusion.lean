import StubManager.Proofs.FileTree.Overlooking
import StubManager.Proofs.Installation.Separation

/-!
# Files in a working directory

A working directory is secluded if the ways to what an installation touches avoid it (`Secluded`).
An installation overlooks a file that lies in such a directory: main statement
`overlooks_installGenerated`, by way of `Transaction.overlooks_begin`, `Registry.overlooks_install`
and `Bundle.overlooks_stage`.
-/

namespace StubManager

open Node World Running Registry Files

/-! ## Transactions -/

namespace Transaction

variable {place : List String} {dirs : List String → Prop} {w₀ : World}

/-- Whether a target can be remembered and brought back beside a file. -/
def Target.Beside (place : List String) (dirs : List String → Prop) (cwd : List String) :
    Target → Prop
  | .file p => Avoids place cwd p
  | .directory p => ∀ q ∈ [p, preservedPath p],
    Avoids place cwd q ∧ Aloof (· = place) dirs (q.place cwd)

theorem Target.Beside.alone {target : Target} (h : target.Beside place dirs w₀.cwd) :
    target.Alone (Outside (· = place)) (Aloof (· = place) dirs) w₀.cwd := by
  cases target with
  | file p => exact outside_iff.2 (Avoids.not_le h)
  | directory p => exact ⟨(h p (by simp)).2, (h (preservedPath p) (by simp)).2⟩

theorem overlooks_backupFile (t : Transaction) {p : Path} (h : Avoids place w₀.cwd p) :
    Overlooks place dirs w₀ (t.backupFile p) := by
  rw [backupFile]
  split
  · exact commutes_pure t
  · refine (overlooks_exists? h).bind fun _ isThere _ _ => ?_
    split
    · exact ((overlooks_read h).adapt _).bind fun _ _ _ _ => commutes_pure _
    · exact commutes_pure _

variable (hfile : w₀.root.FileAt place)
include hfile

theorem overlooks_backup (t : Transaction) {target : Target}
    (h : target.Beside place dirs w₀.cwd) : Overlooks place dirs w₀ (t.backup target) := by
  cases target with
  | file p => exact overlooks_backupFile t h
  | directory p =>
    obtain ⟨hp, haloof⟩ := h p (by simp)
    obtain ⟨hpreserved, haloof'⟩ := h (preservedPath p) (by simp)
    rw [backup, backupDirectory]
    split
    · exact commutes_pure t
    · refine (overlooks_isDirectory hp).bind fun _ isDirectory _ _ => ?_
      split
      · exact commutes_pure _
      · have hmove := overlooks_moveOver hfile hp hpreserved haloof haloof'
        exact (hmove.adapt _).bind fun _ _ _ _ => commutes_pure _

/-! ### Bringing back and giving up -/

theorem exchanges_restoreFile {backup : FileBackup} (h : Avoids place w₀.cwd backup.path) :
    Exchanges (Spared (· = place) dirs w₀) (·.erase place) (restoreFile · backup) := by
  intro w hw
  dsimp only
  rw [restoreFile, restoreFile]
  cases backup.contents with
  | some data => exact (overlooks_writeWith hfile h none data).quietly w hw
  | none =>
    dsimp only
    rw [exists?_erase hw.plain (hw.cwd.symm ▸ h)]
    split
    · exact (overlooks_removeFile hfile h).quietly w hw
    · exact ⟨hw, rfl⟩

omit hfile in
theorem exchanges_removeCreated {p : Path} (h : Avoids place w₀.cwd p)
    (haloof : Aloof (· = place) dirs (p.place w₀.cwd)) :
    Exchanges (Spared (· = place) dirs w₀) (·.erase place) (removeCreated · p) := by
  intro w hw
  dsimp only
  rw [removeCreated, removeCreated, isDirectory_erase hw.plain (hw.cwd.symm ▸ h)]
  split
  · exact (overlooks_removeTree h haloof).quietly w hw
  · exact ⟨hw, rfl⟩

theorem Within.exchanges_rollback {targets : Target → Prop} {t : Transaction}
    (h : Within targets t) (hbeside : ∀ target, targets target → target.Beside place dirs w₀.cwd) :
    Exchanges (Spared (· = place) dirs w₀) (·.erase place) t.rollback := by
  have hfiles : Exchanges (Spared (· = place) dirs w₀) (·.erase place)
      (t.files.foldl restoreFile) :=
    .foldl fun backup hbackup => exchanges_restoreFile hfile (hbeside _ (h.files backup hbackup))
  have hcreated : Exchanges (Spared (· = place) dirs w₀) (·.erase place)
      (t.createdInOrder.foldl removeCreated) := by
    refine .foldl fun p hp => ?_
    obtain ⟨havoids, haloof⟩ :=
      hbeside _ (h.created p (List.mem_mergeSort.1 hp)) p (by simp)
    exact exchanges_removeCreated havoids haloof
  have hdirectories : Exchanges (Spared (· = place) dirs w₀) (·.erase place)
      (t.directories.foldl restoreDirectory) := by
    refine .foldl fun backup hbackup => ?_
    obtain ⟨hpath, hpreserved⟩ := h.directories backup hbackup
    obtain ⟨havoids, haloof⟩ := hbeside _ hpath backup.path (by simp)
    obtain ⟨havoids', haloof'⟩ := hbeside _ hpath (preservedPath backup.path) (by simp)
    rw [← hpreserved] at havoids' haloof'
    exact (overlooks_moveOver hfile havoids' havoids haloof' haloof).quietly
  exact (hfiles.comp hcreated).comp hdirectories

omit hfile in
theorem Within.exchanges_commit {targets : Target → Prop} {t : Transaction}
    (h : Within targets t) (hbeside : ∀ target, targets target → target.Beside place dirs w₀.cwd) :
    Exchanges (Spared (· = place) dirs w₀) (·.erase place) t.commit := by
  refine .foldl fun backup hbackup => ?_
  obtain ⟨hpath, hpreserved⟩ := h.directories backup hbackup
  obtain ⟨havoids, haloof⟩ := hbeside _ hpath (preservedPath backup.path) (by simp)
  rw [← hpreserved] at havoids haloof
  exact (overlooks_removeTree havoids haloof).quietly

/-- A transaction begins with the same memory whether or not the file is there. -/
theorem overlooks_begin {t : Transaction} {targets : Target → Prop} {more : List Target}
    (hmore : ∀ target ∈ more, targets target)
    (hbeside : ∀ target, targets target → target.Beside place dirs w₀.cwd)
    (h : Within targets t) : Overlooks place dirs w₀ (t.begin more) := by
  intro w hw
  induction more generalizing t w with
  | nil => exact ⟨hw, rfl⟩
  | cons target more ih =>
    rw [List.forall_mem_cons] at hmore
    have hmovable : ∀ p, targets (.directory p) →
        Movable (Aloof (· = place) dirs) w₀.cwd p := fun p hp => (hbeside _ hp).alone
    obtain ⟨result, w', hrun, hw', hwithin⟩ :=
      backup_within (enduring_spared (· = place) dirs w₀) h hmore.1 hmovable hw
    have hsame := (overlooks_backup hfile t (hbeside target hmore.1) w hw).2
    rw [begin_cons, begin_cons, hsame, hrun]
    cases result with
    | error failure =>
      obtain ⟨hkept, hback⟩ := h.exchanges_rollback hfile hbeside w' hw'
      exact ⟨hkept, congrArg (Prod.mk _) hback⟩
    | ok next => exact ih hmore.2 (hwithin next rfl) w' hw'

end Transaction

/-! ## Work -/

namespace Work

variable {α : Type} {base : Path} {place : List String} {dirs : List String → Prop} {w₀ : World}

/-- Whether work overlooks the file at a place on the way from a world. -/
def Overlooks (base : Path) (place : List String) (dirs : List String → Prop) (w₀ : World)
    (work : Work α) : Prop :=
  Commutes (Underway base (Spared (· = place) dirs w₀))
    (fun site => { site with world := site.world.erase place }) work

theorem overlooks_onWorld {action : Action Failure α} (h : Files.Overlooks place dirs w₀ action) :
    Work.Overlooks base place dirs w₀ (liftM action : Work α) := by
  intro site hsite
  obtain ⟨hkept, hsame⟩ := h site.world hsite.world
  refine ⟨⟨hsite.home, hkept⟩, ?_⟩
  rw [liftM_apply, liftM_apply, hsame]

theorem overlooks_registry : Work.Overlooks base place dirs w₀ Work.registry :=
  fun _ hsite => ⟨hsite, rfl⟩

theorem overlooks_changeRegistry {change : Registry → Registry}
    (hhome : ∀ registry, (change registry).home = registry.home) :
    Work.Overlooks base place dirs w₀ (changeRegistry change) :=
  fun site hsite => ⟨keeps_changeRegistry hhome site hsite, rfl⟩

theorem Overlooks.andFinally {work : Work α} {cleanup : World → World}
    (hwork : Work.Overlooks base place dirs w₀ work)
    (hcleanup : Exchanges (Spared (· = place) dirs w₀) (·.erase place) cleanup) :
    Work.Overlooks base place dirs w₀ (work.andFinally cleanup) := by
  intro site hsite
  obtain ⟨hkept, hsame⟩ := hwork site hsite
  obtain ⟨hkept', hsame'⟩ := hcleanup _ hkept.world
  refine ⟨⟨hkept.home, hkept'⟩, ?_⟩
  rw [Work.andFinally, Work.andFinally, hsame]
  dsimp only
  rw [hsame']
  rfl

/-- A protected change overlooks a file that it overlooks itself, beside its targets. -/
theorem overlooks_protecting (hfile : w₀.root.FileAt place) {targets : List Transaction.Target}
    (hbeside : ∀ target ∈ targets, target.Beside place dirs w₀.cwd) {body : Work α}
    (hbody : Work.Overlooks base place dirs w₀ body) :
    Work.Overlooks base place dirs w₀ (protecting targets body) := by
  have hbegin := Transaction.overlooks_begin hfile (fun _ => id) hbeside
    (Transaction.within_empty (· ∈ targets))
  refine (overlooks_onWorld hbegin).bind fun site t hsite hrun => ?_
  have ht : Transaction.Within (· ∈ targets) t := by
    rw [liftM_apply] at hrun
    exact (Transaction.begin_within (enduring_spared (· = place) dirs w₀) (fun _ => id)
      (fun _ hp => (hbeside _ hp).alone) (Transaction.within_empty _) hsite.world
      (Prod.ext hrun rfl)).2
  intro site' hsite'
  obtain ⟨hkept, hsame⟩ := hbody site' hsite'
  dsimp only at hsame ⊢
  rw [hsame]
  generalize body site' = ended at hkept
  obtain ⟨failure | a, site''⟩ := ended
  · obtain ⟨hkept', hback⟩ := ht.exchanges_rollback hfile hbeside _ hkept.world
    refine ⟨⟨hkept.home, hkept'⟩, ?_⟩
    dsimp only
    rw [hback]
  · obtain ⟨hkept', hgone⟩ := ht.exchanges_commit hbeside _ hkept.world
    refine ⟨⟨hkept.home, hkept'⟩, ?_⟩
    dsimp only
    rw [hgone]

end Work

/-! ## Secluded directories -/

/-- Whether a directory lies apart from what an installation touches and from the ways there: from
the home, the list and the place for temporary directories. -/
structure Secluded (base : Path) (manifest : Option Manifest) (dirs : List String → Prop)
    (w : World) (lodge : List String) : Prop where
  home : Avoids lodge w.cwd base
  stubs : ¬ base.place w.cwd ++ [stubsName] <+: lodge
  rest : ∀ place, dirs place → ¬ base.place w.cwd ++ [stubsName] <+: place
  list : ∀ m ∈ manifest, Avoids lodge w.cwd m.path
  temporary : Avoids lodge w.cwd w.tempDir

namespace Secluded

variable {base : Path} {manifest : Option Manifest} {dirs : List String → Prop} {w : World}
variable {lodge : List String} {name : String}

/-- What lies in a directory is no entry of a place that does not lie in it. -/
theorem concat_ne {t : List String} (h : ¬ lodge <+: t) (last : String) :
    lodge ++ [name] ≠ t ++ [last] := by
  intro heq
  obtain ⟨rfl, -⟩ := List.append_inj' heq rfl
  exact h (List.prefix_refl _)

theorem concat_not_le {t : List String} (h : ¬ lodge <+: t) (last : String) :
    ¬ lodge ++ [name] <+: t ++ [last] := by
  rw [List.prefix_concat_iff]
  exact not_or.2 ⟨concat_ne h last, fun hle => h ((List.prefix_append _ _).trans hle)⟩

theorem avoids {p : Path} (h : Avoids lodge w.cwd p) : Avoids (lodge ++ [name]) w.cwd p :=
  h.mono (List.prefix_append _ _)

theorem index (h : Secluded base manifest dirs w lodge) (name : String) :
    Avoids (lodge ++ [name]) w.cwd (base.join fileName) :=
  (avoids h.home).join (by decide) (concat_not_le h.home.not_le _)

theorem not_le_stubs (h : Secluded base manifest dirs w lodge) :
    ¬ lodge <+: base.place w.cwd ++ [stubsName] := by
  rw [List.prefix_concat_iff]
  rintro (rfl | hle)
  · exact h.stubs (List.prefix_refl _)
  · exact h.home.not_le hle

theorem entry (h : Secluded base manifest dirs w lodge) (name entry : String) :
    Aloof (· = lodge ++ [name]) dirs (entryPlace (base.place w.cwd) entry) := by
  rw [entryPlace_eq]
  refine ⟨?_, fun place hplace hle => h.rest place hplace ((List.prefix_append _ _).trans hle)⟩
  rintro _ rfl
  exact ⟨concat_not_le h.not_le_stubs entry, concat_not_le h.stubs name⟩

theorem stub (h : Secluded base manifest dirs w lodge) (name : String) {entry : String} {p : Path}
    (hunder : base.Under [stubsName] entry p) :
    Clear (lodge ++ [name]) w.cwd p ∧ Aloof (· = lodge ++ [name]) dirs (p.place w.cwd) := by
  have haloof := h.entry name entry
  rw [place_of_under hunder]
  refine ⟨⟨fun other hother => ?_, ?_⟩, haloof⟩
  · obtain hother | ⟨more, hmore, rfl⟩ := hunder.passes hother
    · exact avoids h.home other hother
    · intro hle
      exact (haloof.kept _ rfl).1
        (hle.trans ((List.prefix_append_right_inj (base.place w.cwd)).2 hmore))
  · rw [place_of_under hunder]
    exact (haloof.kept _ rfl).2

end Secluded

section

variable {base : Path} {manifest : Option Manifest} {dirs : List String → Prop} {w₀ : World}
variable {lodge : List String} {name : String} (hsecluded : Secluded base manifest dirs w₀ lodge)
variable (hfile : w₀.root.FileAt (lodge ++ [name]))

/-! ## Staging and installing -/

theorem Metadata.overlooks_load {directory : Path} {place : List String}
    (h : Clear place w₀.cwd directory) :
    Files.Overlooks place dirs w₀ (Metadata.load directory) := by
  have hjoin := (h.join (by decide : IsName fileName)).avoids
  refine ((overlooks_readText hjoin).adapt _).bind fun _ text _ _ => ?_
  split
  · exact commutes_pure _
  · exact commutes_throw _

namespace Bundle

include hfile

theorem overlooks_fill {source : StubSource} (hhash : source.hash = none)
    (hs : Clear (lodge ++ [name]) w₀.cwd source.directory) {staging : Path}
    (ht : Clear (lodge ++ [name]) w₀.cwd staging) :
    Files.Overlooks (lodge ++ [name]) dirs w₀ (fill source staging) := by
  have hcopy := ht.join (by decide : IsName "stub")
  refine ((overlooks_copyTree hfile _ hs hcopy).adapt _).bind fun _ _ _ _ => ?_
  refine ((Metadata.overlooks_load hcopy).adapt _).bind fun _ metadata _ _ => ?_
  rw [hhash]
  refine (commutes_pure ()).bind fun _ _ _ _ => ?_
  split
  · exact commutes_throw _
  · exact (commutes_ofExcept _).bind fun _ _ _ _ => commutes_pure _

include hsecluded

/-- There is room for a temporary directory at every world on the way. -/
theorem spacious_of_secluded {w : World} (hw : Spared (· = lodge ++ [name]) dirs w₀ w) :
    Spacious (Outside (· = lodge ++ [name])) (Outside (· = lodge ++ [name]))
      (Aloof (· = lodge ++ [name]) dirs) "mpstubs-stage-" w := by
  have hunhandled : ∀ place, place = lodge ++ [name] → Unhandled temporaryStems w place := by
    rintro _ rfl
    refine ⟨?_, .inl ?_⟩
    · rw [hw.cwd, hw.tempDir]
      exact Secluded.avoids hsecluded.temporary
    · obtain ⟨data, mode, hnode⟩ := fileAt_of_spared hfile hw
      rw [hnode]
      exact Option.some_ne_none _
  exact spacious_spared List.mem_cons_self hunhandled hw.dir

/-- A stub is staged in the same way whether or not the file is there. -/
theorem overlooks_stage {source : StubSource} (hhash : source.hash = none)
    (hs : Clear (lodge ++ [name]) w₀.cwd source.directory) :
    Files.Overlooks (lodge ++ [name]) dirs w₀ (stage source) := by
  have hstem := Bundle.proper_of_stem (List.mem_cons_self : "mpstubs-stage-" ∈ temporaryStems)
  have hmake : Files.Overlooks (lodge ++ [name]) dirs w₀ (makeTemporary "mpstubs-stage-") := by
    refine overlooks_makeTemporary hfile hstem (Secluded.avoids hsecluded.temporary) ?_
    intro temporary _ heq
    obtain ⟨rfl, -⟩ := List.append_inj' heq rfl
    exact hsecluded.temporary.not_le (List.prefix_refl _)
  have hstaged : Files.Overlooks (lodge ++ [name]) dirs w₀ (do
      let staging ← makeTemporary "mpstubs-stage-"
      try fill source staging
      catch failure =>
        modify (discard staging)
        throw failure : Action Failure Bundle) := by
    refine hmake.bind fun w staging hw hrun => ?_
    have hspace := spacious_of_secluded hsecluded hfile hw
    obtain ⟨result, w', hmade, -, hroom⟩ :=
      (hw.cwd ▸ enduring_spared _ dirs w₀).makeTemporary_cases hw hstem hspace
    rw [hmade] at hrun
    obtain ⟨hway, hloose, -⟩ := hw.cwd ▸ hroom staging hrun
    have hclear : Clear (lodge ++ [name]) w₀.cwd staging :=
      ⟨fun other hother => outside_iff.1 (hway other hother), (hloose.kept _ rfl).2⟩
    refine (overlooks_fill hfile hhash hs hclear).tryCatch fun failure => ?_
    have hremove : Files.Overlooks (lodge ++ [name]) dirs w₀ (removeTree staging) :=
      overlooks_removeTree hclear.avoids hloose
    exact hremove.quietly.modify.bind fun _ _ _ _ => commutes_throw failure
  rw [stage]
  cases source.name with
  | none => exact hstaged
  | some given => exact (commutes_ofExcept _).bind fun _ _ _ _ => hstaged

end Bundle

namespace Registry

include hsecluded hfile

theorem overlooks_place {part : String} (hpart : IsName part) {source : Path}
    (hs : World.Clear (lodge ++ [name]) w₀.cwd source) :
    Files.Overlooks (lodge ++ [name]) dirs w₀ (place source (stubPath base part)) := by
  have hunder := under_stub base hpart
  have hincoming := hunder.withFileName (isName_incomingName hpart)
  obtain ⟨hin, hloose⟩ := hsecluded.stub name hincoming
  obtain ⟨hto, hloose'⟩ := hsecluded.stub name hunder
  rw [place, hunder.fileName?]
  dsimp only [Option.getD_some]
  rw [← incomingName]
  refine ((overlooks_clear hin.avoids hloose).adapt _).bind fun _ _ _ _ => ?_
  refine (overlooks_copyTree hfile [] hs hin).run.bind fun _ result _ _ => ?_
  cases result with
  | ok _ => exact (overlooks_moveOver hfile hin.avoids hto.avoids hloose hloose').adapt _
  | error fault =>
    exact (overlooks_removeTree hin.avoids hloose).passing.bind fun _ _ _ _ => commutes_throw _

theorem overlooks_save {registry : Registry} (hhome : registry.home = base) :
    Files.Overlooks (lodge ++ [name]) dirs w₀ registry.save := by
  subst hhome
  have hends := Path.endsWith_join registry.home (by decide : IsName fileName)
  have hplace := Files.place_holder (by decide) hends w₀.cwd
  rw [Path.place_join _ (by decide)] at hplace
  obtain ⟨hholder, -⟩ := List.append_inj' hplace rfl
  refine (overlooks_replace hfile (by decide) hends (hsecluded.index name) (fun draft _ => ?_)
    _).adapt _
  rw [← hholder]
  exact Secluded.concat_ne hsecluded.home.not_le draft

/-- A bundle is installed in the same way whether or not the file is there. -/
theorem overlooks_install {bundle : Bundle}
    (hs : World.Clear (lodge ++ [name]) w₀.cwd bundle.path) :
    Work.Overlooks base (lodge ++ [name]) dirs w₀ (install bundle) := by
  refine Work.overlooks_registry.bind fun site registry hsite hregistry => ?_
  rw [Work.registry_apply, Except.ok.injEq] at hregistry
  refine (commutes_ofExcept _).bind fun _ directory _ hdirectory => ?_
  rw [ofExcept_apply] at hdirectory
  obtain ⟨hpart, rfl⟩ := directory_eq_ok hdirectory
  rw [← hregistry, hsite.home]
  refine (Work.overlooks_onWorld (overlooks_place hsecluded hfile hpart hs)).bind fun _ _ _ _ => ?_
  refine (Work.overlooks_onWorld overlooks_now).bind fun _ now _ _ => ?_
  refine (Work.overlooks_changeRegistry fun registry => upsert_home registry _).bind
    fun _ _ _ _ => ?_
  refine Work.overlooks_registry.bind fun site registry hsite hregistry => ?_
  rw [Work.registry_apply, Except.ok.injEq] at hregistry
  have hsave := overlooks_save hsecluded hfile (hregistry ▸ hsite.home)
  exact (Work.overlooks_onWorld hsave).bind fun _ _ _ _ => commutes_pure _

end Registry

/-! ## Lists -/

namespace Work

theorem overlooks_planEdit (hlist : ∀ m ∈ manifest, Avoids lodge w₀.cwd m.path)
    (change : ChangeSet) :
    Work.Overlooks base (lodge ++ [name]) dirs w₀ (planEdit manifest change) := by
  cases manifest with
  | none => exact commutes_pure _
  | some m =>
    have hload : Files.Overlooks (lodge ++ [name]) dirs w₀ m.load := by
      have hread : Files.Overlooks (lodge ++ [name]) dirs w₀ (readText m.path) :=
        overlooks_readText (Secluded.avoids (hlist m rfl))
      exact (hread.adapt _).bind fun _ _ _ _ => commutes_pure _
    have hplan : Files.Overlooks (lodge ++ [name]) dirs w₀ (m.plan change) :=
      hload.bind fun _ _ _ _ => (commutes_ofExcept _).bind fun _ _ _ _ => commutes_pure _
    exact (overlooks_onWorld hplan).bind fun _ _ _ _ => commutes_pure _

include hfile

theorem overlooks_saveEdit {edit : Option (Artifact × Path)}
    (hedit : ∀ p ∈ edit.map (·.2), Avoids lodge w₀.cwd p ∧ ∃ last, IsName last ∧ p.EndsWith last) :
    Work.Overlooks base (lodge ++ [name]) dirs w₀ (saveEdit edit) := by
  cases edit with
  | none => exact commutes_pure _
  | some edit =>
    obtain ⟨artifact, p⟩ := edit
    obtain ⟨havoids, last, hlast, hends⟩ := hedit p rfl
    have hholder : ¬ lodge <+: (holder p).place w₀.cwd :=
      havoids _ (Files.passes_holder hlast hends ((holder p).passes_place _))
    have hsave : Files.Overlooks (lodge ++ [name]) dirs w₀ (artifact.save p) :=
      (overlooks_replace hfile hlast hends (Secluded.avoids havoids)
        (fun draft _ => Secluded.concat_ne hholder draft) _).adapt _
    exact (overlooks_onWorld hsave).bind fun _ _ _ _ => commutes_pure _

end Work

/-! ## Installations -/

namespace Installation

include hsecluded hfile

theorem overlooks_installBundle {bundle : Bundle}
    (hs : Clear (lodge ++ [name]) w₀.cwd bundle.path) :
    Work.Overlooks base (lodge ++ [name]) dirs w₀
      (installBundle Registry.store manifest bundle) := by
  refine (Work.overlooks_planEdit hsecluded.list _).bind fun site edit hsite hrun => ?_
  have hedit : ∀ p ∈ edit.map (·.2), Avoids lodge w₀.cwd p ∧
      ∃ last, IsName last ∧ p.EndsWith last := by
    obtain ⟨failure, hplan⟩ | ⟨edit', hplan, hthere, hpaths⟩ :=
      Work.planEdit_cases manifest (.adding [bundle.name]) site
    · rw [hplan] at hrun
      cases hrun
    · rw [hplan, Except.ok.injEq] at hrun
      subst hrun
      intro p hp
      obtain ⟨m, hm, rfl⟩ := hpaths p hp
      obtain ⟨data, mode, hfind⟩ := hthere m hm
      exact ⟨hsecluded.list m hm, endsWith_of_isFile hsite.world.plain hfind⟩
  refine Work.overlooks_registry.bind fun site registry hsite hregistry => ?_
  rw [Work.registry_apply, Except.ok.injEq] at hregistry
  refine (commutes_ofExcept _).bind fun _ footprint _ hfootprint => ?_
  rw [ofExcept_apply] at hfootprint
  obtain ⟨hpart, hfiles, hdirectory⟩ := footprint_eq_ok hfootprint
  rw [← hregistry, hsite.home] at hfiles hdirectory
  refine Work.overlooks_protecting hfile ?_ ?_
  · rw [Footprint.targets, hfiles, hdirectory, List.map_singleton, List.singleton_append,
      List.cons_append, List.singleton_append, List.forall_mem_cons, List.forall_mem_cons]
    refine ⟨hsecluded.index name, fun q hq => ?_, fun target htarget => ?_⟩
    · rw [List.mem_pair] at hq
      obtain rfl | rfl := hq
      · exact (hsecluded.stub name (under_stub base hpart)).imp_left (·.avoids)
      · exact (hsecluded.stub name (Transaction.preservedPath_stub base hpart)).imp_left (·.avoids)
    · obtain ⟨p, hp, rfl⟩ := List.mem_map.1 htarget
      exact Secluded.avoids (hedit p (Option.mem_toList.1 hp)).1
  · refine (overlooks_install hsecluded hfile hs).bind fun _ _ _ _ => ?_
    exact (Work.overlooks_saveEdit hfile hedit).bind fun _ _ _ _ => commutes_pure _

theorem overlooks_register {bundle : Bundle} (hs : Clear (lodge ++ [name]) w₀.cwd bundle.path) :
    Work.Overlooks base (lodge ++ [name]) dirs w₀
      (register Registry.store manifest bundle true) := by
  refine Work.overlooks_registry.bind fun _ registry _ _ => ?_
  have hinstall := overlooks_installBundle hsecluded hfile hs
  cases registry.find? bundle.name with
  | none => exact hinstall
  | some record => exact hinstall

/-- What a device generated is installed in the same way whether or not the file is there. -/
theorem overlooks_installGenerated (port : String) {directory : Path}
    (hs : Clear (lodge ++ [name]) w₀.cwd directory) :
    Work.Overlooks base (lodge ++ [name]) dirs w₀
      (Extraction.installGenerated Registry.store manifest port directory) := by
  have hstage : Files.Overlooks (lodge ++ [name]) dirs w₀
      (Extraction.stageGenerated port directory) :=
    ((Metadata.overlooks_load hs).adapt _).bind fun _ _ _ _ =>
      Bundle.overlooks_stage hsecluded hfile rfl hs
  refine (Work.overlooks_onWorld hstage).bind fun site bundle hsite hrun => ?_
  have hw := hsite.world
  obtain ⟨result, w', hstaged, -, hroom⟩ :=
    stageGenerated_spacious (hw.cwd ▸ enduring_spared _ dirs w₀) hw
      (Bundle.spacious_of_secluded hsecluded hfile hw) port directory
  rw [Work.liftM_apply, hstaged] at hrun
  obtain ⟨hway, hloose, -⟩ := hw.cwd ▸ hroom bundle hrun
  have hclear : Clear (lodge ++ [name]) w₀.cwd bundle.staging :=
    ⟨fun other hother => outside_iff.1 (hway other hother), (hloose.kept _ rfl).2⟩
  have hregister := overlooks_register hsecluded hfile (hclear.join (by decide : IsName "stub"))
  exact hregister.andFinally (overlooks_removeTree hclear.avoids hloose).quietly

end Installation

end

end StubManager
