import StubManager.Proofs.Installation.Enlisting
import StubManager.Proofs.Installation.Persistence
import StubManager.Proofs.Installation.Separation
import StubManager.Proofs.Registry.Placing

/-!
# What is installed is what was in the source

After a stub was staged and installed, or added, its directory holds what the source holds, without
caches and without anything that was there before, and the source is as it was, if it lies apart
from all that changes (`find?_run`). The way to the home or to the list must not lead through what
is moved aside, cleared or discarded (`find?_run_ne`).
-/

namespace StubManager

open Node World Running Registry Transaction

variable {w w' : World} {site site' : Site} {name : String} {manifest : Option Manifest}

namespace Registry

variable {base : Path} {part : String} {kept : List String → Prop}

/-! ## Homes on the way -/

/-- Whether a place is a directory on the way to a home. -/
def Waypoint (base : Path) (w : World) (place : List String) : Prop :=
  OnWay base w.cwd place ∧ w.root.DirAt place

/-- Where the way to a home is spared the home is found again. -/
theorem Settled.spared (h : Settled base w) (hspared : Spared kept (Waypoint base w) w w') :
    Settled base w' :=
  h.remains ⟨hspared.cwd, hspared.tempDir, hspared.plain, fun place hplace hdir =>
    hspared.dir place ⟨hplace, hdir⟩⟩

/-- What lies neither in an entry beside the stubs nor above it is apart from the way to the home,
which does not lead through the entry. -/
theorem Settled.aloof_entry (h : Settled base w) {entry : String}
    (hkept : ∀ place, kept place → ¬ place <+: entryPlace (base.place w.cwd) entry ∧
      ¬ entryPlace (base.place w.cwd) entry <+: place) :
    Aloof kept (Waypoint base w) (entryPlace (base.place w.cwd) entry) :=
  ⟨hkept, fun place hplace => (h.beside_entry entry).way place hplace.1⟩

theorem Settled.find?_stub (h : Settled base w) (hpart : IsName part)
    (hvalid : Valid (stubPath base part)) :
    w.find? (stubPath base part) = w.root.get? (entryPlace (base.place w.cwd) part) := by
  rw [find?_of_under h.plain (under_stub base hpart) (fun turn hturn => (h.turns turn hturn).1)
    hvalid, place_stubPath base hpart]

/-! ## Temporary directories beside the stubs -/

section

variable {temporary : String} (h : Settled base w)
  (htemporary : temporary ∈ Files.temporaryNames "mpstubs-stage-")
  (hvacant : w.root.get? (w.tempDir.place w.cwd ++ [temporary]) = none)
include h htemporary hvacant

theorem not_temporary_le_stubs :
    ¬ w.tempDir.place w.cwd ++ [temporary] <+: base.place w.cwd ++ [stubsName] := by
  rw [List.prefix_concat_iff]
  rintro (heq | hle)
  · have hother : ¬ "mpstubs-stage-".toList <+: stubsName.toList := by decide
    refine Files.ne_of_mem_temporaryNames hother htemporary ?_
    exact (List.cons.inj (List.append_inj' heq rfl).2).1
  · exact (h.beside_temporary List.mem_cons_self htemporary hvacant).way _ (.inr rfl) hle

/-- What is staged does not lie above an entry beside the stubs. -/
theorem not_staged_le_entry (entry : String) :
    ¬ w.tempDir.place w.cwd ++ [temporary] ++ ["stub"] <+: entryPlace (base.place w.cwd) entry := by
  have hnot := not_temporary_le_stubs h htemporary hvacant
  rw [entryPlace_eq, List.prefix_concat_iff]
  rintro (heq | hle)
  · exact hnot ((List.append_inj' heq rfl).1 ▸ List.prefix_refl _)
  · exact hnot ((List.prefix_append _ _).trans hle)

/-- Nor does the directory that it is staged in, unless the entry lies there. -/
theorem not_temporary_le_entry {entry : String}
    (hentry : ¬ entryPlace (base.place w.cwd) entry <+: w.tempDir.place w.cwd ++ [temporary]) :
    ¬ w.tempDir.place w.cwd ++ [temporary] <+: entryPlace (base.place w.cwd) entry := by
  intro hle
  have hsame := hle
  rw [entryPlace_eq, List.prefix_concat_iff, ← entryPlace_eq] at hsame
  obtain heq | hle := hsame
  · exact hentry (heq ▸ List.prefix_refl _)
  · exact not_temporary_le_stubs h htemporary hvacant hle

/-- What a stub is moved aside to is no temporary directory. -/
theorem not_previous_le_staged {part : String}
    (hprevious : ¬ entryPlace (base.place w.cwd) (previousName part) <+: w.tempDir.place w.cwd) :
    ¬ entryPlace (base.place w.cwd) (previousName part) <+:
      w.tempDir.place w.cwd ++ [temporary] ++ ["stub"] := by
  rw [List.prefix_concat_iff]
  rintro (heq | hle)
  · exact not_staged_le_entry h htemporary hvacant (previousName part)
      (heq.symm ▸ List.prefix_refl _)
  rw [List.prefix_concat_iff] at hle
  obtain heq | hle := hle
  · have hother : ¬ "mpstubs-stage-".toList <+: (previousName part).toList := by
      simp [previousName]
    refine Files.ne_of_mem_temporaryNames hother htemporary ?_
    rw [entryPlace_eq] at heq
    exact (List.cons.inj (List.append_inj' heq rfl).2).1.symm
  · exact hprevious hle

end

end Registry

namespace Installation

variable {added : Added}

/-! ## Successes that install something -/

theorem alreadyInstalled_of_listInstalled {record : Record}
    (hrun : listInstalled manifest record site = (.ok added, site')) :
    added.alreadyInstalled = true := by
  rw [listInstalled, bind_eq_ok_iff] at hrun
  obtain ⟨edit, site₁, -, hrun⟩ := hrun
  rw [bind_eq_ok_iff] at hrun
  obtain ⟨saved, site₂, -, hrun⟩ := hrun
  cases hrun
  rfl

theorem of_register_eq_ok {bundle : Bundle} {force : Bool}
    (hrun : register Registry.store manifest bundle force site = (.ok added, site'))
    (hnew : added.alreadyInstalled = false) :
    installBundle Registry.store manifest bundle site = (.ok added, site') := by
  rw [register, bind_apply, Work.registry_apply] at hrun
  dsimp only at hrun
  cases hrecord : site.registry.find? bundle.name with
  | none =>
    rw [hrecord] at hrun
    exact hrun
  | some record =>
    rw [hrecord] at hrun
    cases force with
    | true => exact hrun
    | false =>
      rw [alreadyInstalled_of_listInstalled hrun] at hnew
      cases hnew

theorem of_add_eq_ok {catalog : Path} {identifier : String} {force : Bool}
    (hrun : add Registry.store catalog manifest identifier force site = (.ok added, site'))
    (hnew : added.alreadyInstalled = false) : ∃ bundle w₁ site₂,
      Bundle.ofIdentifier catalog identifier site.world = (.ok bundle, w₁) ∧
      register Registry.store manifest bundle force { site with world := w₁ }
        = (.ok added, site₂) ∧
      site' = { site₂ with world := Bundle.discard bundle.staging site₂.world } := by
  obtain ⟨record, -, hinstalled⟩ | ⟨-, hstaged⟩ := add_cases hrun
  · rw [alreadyInstalled_of_listInstalled hinstalled] at hnew
    cases hnew
  · exact hstaged

/-! ## Additions -/

/-- Saving a list that is not reached through an entry beside the stubs leaves that entry. -/
theorem spared_saveEdit_entry {home : Path} (h : Settled home site.world) {entry : String}
    (hthere : site.world.root.get? (entryPlace (home.place site.world.cwd) entry) ≠ none)
    {edit : Option (Artifact × Path)}
    (hedit : ∀ p ∈ edit.map (·.2), (∀ place, p.Passes site.world.cwd place →
      ¬ entryPlace (home.place site.world.cwd) entry <+: place) ∧
        ∃ name, IsName name ∧ p.EndsWith name) :
    Spared (· = entryPlace (home.place site.world.cwd) entry) (Waypoint home site.world) site.world
      (Work.saveEdit edit site).2.world := by
  have hkeeps : Keeps (Underway site.registry.home
      (Spared (· = entryPlace (home.place site.world.cwd) entry) (Waypoint home site.world)
        site.world)) (Work.saveEdit edit) := by
    refine Work.spared_saveEdit fun p hp => ?_
    obtain ⟨hway, hname⟩ := hedit p hp
    refine ⟨⟨?_, ?_⟩, hname⟩
    · rintro place hpasses _ rfl
      exact hway place hpasses
    · rintro _ rfl
      exact .inl hthere
  exact (hkeeps site ⟨rfl, .refl _ h.plain fun _ hplace => And.right hplace⟩).world

/-- What is remembered before a stub is changed. -/
def stubTargets (home : Path) (part : String) (files : List Path) : List Target :=
  .file (home.join fileName) :: .directory (stubPath home part) :: files.map .file

theorem eq_of_mem_stubTargets {home p : Path} {part : String} {files : List Path}
    (h : .directory p ∈ stubTargets home part files) : p = stubPath home part := by
  simpa [stubTargets] using h

section

variable {home : Path} {part : String} {files : List Path} {t : Transaction}
variable (h : Settled home w) (hpart : IsName part)
include h hpart

/-- What is moved aside as a change begins is not there any more. -/
theorem get?_of_begin (hthere : w.isDirectory (stubPath home part))
    (hrun : begin {} (stubTargets home part files) w = (.ok t, w')) :
    w'.root.get? (entryPlace (home.place w.cwd) part) = none := by
  rw [stubTargets, begin_cons, backup] at hrun
  obtain ⟨failure, hstep⟩ | ⟨contents, -, hstep⟩ :=
    backupFile_cases w (t := {}) (p := home.join fileName) rfl
  · rw [hstep] at hrun
    cases hrun
  rw [hstep] at hrun
  dsimp only at hrun
  rw [begin_cons, backup] at hrun
  have hpreserved := preservedPath_stub home hpart
  obtain ⟨result, w₁, hmove, -, hmoved, -⟩ := Files.moveOver_cases h.plain
    (fun turn hturn => (h.turns turn hturn).imp_right fun hclear => by
      rw [place_of_under hpreserved]
      exact hclear _) (under_stub home hpart) hpreserved (previousName_ne part)
  obtain ⟨hknown, -⟩ | ⟨-, hnot, -⟩ | ⟨-, -, ⟨fault, w₂, hmove', hstep⟩ | ⟨w₂, hmove', hstep⟩⟩ :=
    backupDirectory_outcome ({ files := [{ path := home.join fileName, contents }] })
      (stubPath home part) w
  · cases hknown
  · rw [hthere] at hnot
    cases hnot
  · rw [List.nil_append, hstep] at hrun
    cases hrun
  · rw [List.nil_append, hstep] at hrun
    rw [hmove'] at hmove
    cases hmove
    obtain ⟨-, -, -, -, -, hgone⟩ := hmoved
    rw [begin_files hrun]
    rwa [place_stubPath home hpart] at hgone

/-- What lies apart from the directory of the stub is spared as a change begins. -/
theorem spared_of_begin {kept : List String → Prop}
    (hkept : ∀ place, kept place → ∀ entry ∈ [part, previousName part],
      ¬ place <+: entryPlace (home.place w.cwd) entry ∧
        ¬ entryPlace (home.place w.cwd) entry <+: place)
    (hrun : begin {} (stubTargets home part files) w = (.ok t, w')) :
    Spared kept (Waypoint home w) w w' ∧ Within (· ∈ stubTargets home part files) t := by
  refine begin_within (enduring_spared _ _ w) (fun _ => id) (fun p hp => ?_) (within_empty _)
    (.refl _ h.plain fun _ hplace => hplace.2) hrun
  rw [eq_of_mem_stubTargets hp, Movable, place_stubPath _ hpart,
    place_of_under (preservedPath_stub _ hpart)]
  exact ⟨h.aloof_entry fun place hplace => hkept place hplace _ (by simp),
    h.aloof_entry fun place hplace => hkept place hplace _ (by simp)⟩

/-- The stub itself is spared as the change is completed. -/
theorem spared_of_commit (ht : Within (· ∈ stubTargets home part files) t)
    (hw' : Spared (· = entryPlace (home.place w.cwd) part) (Waypoint home w) w w') :
    Spared (· = entryPlace (home.place w.cwd) part) (Waypoint home w) w (t.commit w') := by
  refine ht.commit_preserved (enduring_spared _ _ w) (fun p hp => ?_) hw'
  rw [eq_of_mem_stubTargets hp, place_of_under (preservedPath_stub _ hpart)]
  refine h.aloof_entry ?_
  rintro _ rfl
  exact entries_apart (previousName_ne _)

end

/-- A bundle that is installed under protection: its directory is moved aside, it is installed, the
list is saved, and what was moved aside is given up. -/
theorem of_installBundle_eq_ok {bundle : Bundle}
    (hrun : installBundle Registry.store manifest bundle site = (.ok added, site'))
    (hplain : site.world.root.Plain) : ∃ edit t w₁ record site₁,
      (∀ p ∈ edit.map (·.2), (∃ m ∈ manifest, p = m.path) ∧ ∃ name, IsName name ∧ p.EndsWith name) ∧
      IsName (directoryName bundle.name) ∧
      begin {} (stubTargets site.registry.home (directoryName bundle.name)
        (edit.map (·.2)).toList) site.world = (.ok t, w₁) ∧
      Registry.install bundle { site with world := w₁ } = (.ok record, site₁) ∧
      site'.world = t.commit (Work.saveEdit edit site₁).2.world := by
  rw [installBundle, bind_eq_ok_iff] at hrun
  obtain ⟨edit, site₁, hplan, hrun⟩ := hrun
  obtain ⟨failure, hfail⟩ | ⟨edit', hplan', hfiles, hedit⟩ :=
    Work.planEdit_cases manifest (.adding [bundle.name]) site
  · rw [hplan] at hfail
    cases hfail
  rw [hplan] at hplan'
  cases hplan'
  rw [bind_apply, Work.registry_apply] at hrun
  dsimp only at hrun
  rw [bind_apply, ofExcept_apply] at hrun
  cases hfootprint : site.registry.footprint bundle.name with
  | error failure =>
    rw [hfootprint] at hrun
    cases hrun
  | ok footprint =>
    rw [hfootprint] at hrun
    obtain ⟨hpart, hindex, hdirectory⟩ := Registry.footprint_eq_ok hfootprint
    obtain ⟨t, w₁, site₂, hbegin, hbody, rfl⟩ := Work.begin_of_protecting_eq_ok hrun
    rw [Footprint.targets, hindex, hdirectory] at hbegin
    rw [bind_eq_ok_iff] at hbody
    obtain ⟨record, site₃, hinstall, hbody⟩ := hbody
    rw [bind_eq_ok_iff] at hbody
    obtain ⟨saved, site₄, hsave, hbody⟩ := hbody
    cases hbody
    refine ⟨edit, t, w₁, record, site₃, fun p hp => ?_, hpart, hbegin, hinstall, by rw [hsave]⟩
    obtain ⟨m, hm, rfl⟩ := hedit p hp
    obtain ⟨data, mode, hfile⟩ := hfiles m hm
    exact ⟨⟨m, hm, rfl⟩, endsWith_of_isFile hplain hfile⟩

/-- A bundle lies in its directory as it was staged, if it was not staged where that is moved aside
to, and the list is not reached through it. -/
theorem get?_of_installBundle {registry : Registry} {bundle : Bundle} {node : Node}
    (hrun : installBundle Registry.store manifest bundle { world := w, registry }
      = (.ok added, site'))
    (h : Settled registry.home w)
    (hnode : w.root.get? (bundle.path.place w.cwd) = some node)
    (hprevious : ¬ entryPlace (registry.home.place w.cwd)
      (previousName (directoryName bundle.name)) <+: bundle.path.place w.cwd)
    (hstaged : ∀ entry, ¬ bundle.path.place w.cwd
      <+: entryPlace (registry.home.place w.cwd) entry)
    (hlist : ∀ m ∈ manifest, ∀ place, m.path.Passes w.cwd place →
      ¬ entryPlace (registry.home.place w.cwd) (directoryName bundle.name)
        <+: place) :
    registry.directory bundle.name
        = .ok (stubPath registry.home (directoryName bundle.name)) ∧
      IsName (directoryName bundle.name) ∧
      Valid (stubPath registry.home (directoryName bundle.name)) ∧
      ¬ entryPlace (registry.home.place w.cwd) (directoryName bundle.name)
        <+: bundle.path.place w.cwd ∧
      ∃ w₁, Settled registry.home w₁ ∧ w₁.cwd = w.cwd ∧
        w₁.root.get? (entryPlace (registry.home.place w.cwd)
          (directoryName bundle.name)) = some node ∧
        Spared (· = entryPlace (registry.home.place w.cwd)
          (directoryName bundle.name)) (Waypoint registry.home w₁) w₁ site'.world := by
  obtain ⟨edit, t, w₁, record, site₁, hedit, hpart, hbegin, hinstall, hend⟩ :=
    of_installBundle_eq_ok hrun h.plain
  dsimp only at hbegin hinstall
  -- What was staged is spared as the change begins, unless it lies in what is moved aside.
  have hkept : ∀ place, (place = bundle.path.place w.cwd ∧
        ¬ entryPlace (registry.home.place w.cwd) (directoryName bundle.name)
          <+: place) →
      ∀ entry ∈ [directoryName bundle.name, previousName (directoryName bundle.name)],
        ¬ place <+: entryPlace (registry.home.place w.cwd) entry ∧
          ¬ entryPlace (registry.home.place w.cwd) entry <+: place := by
    rintro _ ⟨rfl, hnot⟩
    rw [List.forall_mem_cons, List.forall_mem_singleton]
    exact ⟨⟨hstaged _, hnot⟩, hstaged _, hprevious⟩
  obtain ⟨hw₁, ht⟩ := spared_of_begin h hpart hkept hbegin
  have h₁ := h.spared hw₁
  have hcwd₁ := hw₁.cwd
  obtain ⟨-, hfound, hvalid, hguarded, node₁, hnode₁, hthere⟩ :=
    get?_of_install h₁ (by rw [hcwd₁]; exact hstaged _) hinstall
  rw [hcwd₁] at hnode₁ hthere
  have hnot : ¬ entryPlace (registry.home.place w.cwd) (directoryName bundle.name)
      <+: bundle.path.place w.cwd := by
    intro hle
    obtain ⟨entries, hentries⟩ := DirAt.of_get? hnode hle
      fun heq => hstaged (directoryName bundle.name) (heq ▸ List.prefix_refl _)
    have hgone := get?_of_begin h hpart
      (isDirectory_iff.2 ⟨entries, (h.find?_stub hpart hvalid).trans hentries⟩) hbegin
    obtain ⟨rest, hrest⟩ := hle
    rw [← hrest, get?_append, hgone] at hnode₁
    cases hnode₁
  obtain rfl : node₁ = node :=
    Option.some.inj (hnode₁.symm.trans ((hw₁.same _ ⟨rfl, hnot⟩).trans hnode))
  have h₂ := h₁.remains hguarded.toRemains
  have hcwd : site₁.world.cwd = w.cwd := hguarded.cwd.trans hcwd₁
  rw [← hcwd] at hlist hthere hnot ⊢
  refine ⟨hfound, hpart, hvalid, hnot, site₁.world, h₂, rfl, hthere, ?_⟩
  rw [hend]
  refine spared_of_commit h₂ hpart ht (spared_saveEdit_entry h₂ ?_ fun p hp => ?_)
  · rw [hthere]
    exact Option.some_ne_none _
  · obtain ⟨⟨m, hm, rfl⟩, hname⟩ := hedit p hp
    exact ⟨hlist m hm, hname⟩

/-! ## Routes -/

/-- How a stub gets from a directory into a registry: it is staged and installed, or it is added. -/
inductive Route where
  | staged (source : StubSource)
  | added (catalog : Path) (manifest : Option Manifest) (identifier : String) (force : Bool)

namespace Route

/-- Takes a stub into the registry. -/
def run : Route → Work Added
  | .staged source => do
    let bundle ← (Bundle.stage source : Action Failure Bundle)
    let record ← Registry.install bundle
    return { record, alreadyInstalled := false, manifestUpdated := false }
  | .added catalog manifest identifier force =>
    add Registry.store catalog manifest identifier force

/-- Where the stub comes from. -/
def source : Route → Action Failure StubSource
  | .staged source => return source
  | .added catalog _ identifier _ => Bundle.sourceOf catalog identifier

/-- Whether nothing else gets into the directory of the stub. What is staged for an addition must
not come to lie where that directory is moved aside to, and the list must be reached by another
way. -/
def Clear (home : Path) (w : World) (part : String) : Route → Prop
  | .staged _ => True
  | .added _ manifest _ _ =>
    ¬ entryPlace (home.place w.cwd) (previousName part) <+: w.tempDir.place w.cwd ∧
    ∀ m ∈ manifest, ∀ place, m.path.Passes w.cwd place →
      ¬ entryPlace (home.place w.cwd) part <+: place

/-- Whether the path of the home or of a source turns back somewhere. -/
def TurnsBack (home source : Path) (cwd turn : List String) : Prop :=
  home.TurnsAt cwd turn ∨ source.TurnsAt cwd turn

/-- Whether the source lies apart from all that changes with the stub. -/
def Avoids (home source : Path) (w : World) (name : String) : Route → Prop
  | .staged _ => Separate home (directoryName name) (· = source.place w.cwd)
      (TurnsBack home source w.cwd) w
  | .added _ manifest _ _ => Aside home manifest (· = source.place w.cwd)
      (TurnsBack home source w.cwd) w name

/-- The list that is edited as the stub is taken in. -/
def list? : Route → Option Manifest
  | .staged _ => none
  | .added _ manifest _ _ => manifest

section

variable {home : Path} {w : World}

/-- A home that holds neither the directory for temporary ones nor the list, by paths that never
turn back. -/
theorem Clear.of_straight {part : String} (route : Route)
    (htempDir : ¬ home.place w.cwd <+: w.tempDir.place w.cwd)
    (hlist : ∀ m ∈ route.list?, ".." ∉ m.path.names ∧ ¬ home.place w.cwd <+: m.path.place w.cwd) :
    route.Clear home w part := by
  have hbelow : ∀ entry, home.place w.cwd <+: entryPlace (home.place w.cwd) entry := fun _ =>
    List.prefix_append _ _
  cases route with
  | staged source => trivial
  | added catalog manifest identifier force =>
    refine ⟨fun hle => htempDir ((hbelow _).trans hle), fun m hm place hpasses hle => ?_⟩
    obtain ⟨hstraight, hnot⟩ := hlist m hm
    exact hnot ((hbelow _).trans (hle.trans (hpasses.le_of_straight hstraight)))

/-- A source that is there, beside the home and not above the list, by paths that never turn
back. -/
theorem Avoids.of_straight {source : Path} {name : String} (route : Route)
    (hhome : ".." ∉ home.names) (hsource : ".." ∉ source.names)
    (hthere : w.root.get? (source.place w.cwd) ≠ none)
    (hbelow : ¬ home.place w.cwd <+: source.place w.cwd)
    (habove : ¬ source.place w.cwd <+: home.place w.cwd)
    (hlist : ∀ m ∈ route.list?, ".." ∉ m.path.names ∧
      ¬ source.place w.cwd <+: m.path.place w.cwd) : route.Avoids home source w name := by
  have hturns : ∀ turn, ¬ TurnsBack home source w.cwd turn := fun turn hturn =>
    hturn.elim (Path.not_turnsAt_of_not_mem hhome _ turn)
      (Path.not_turnsAt_of_not_mem hsource _ turn)
  have hapart : ∀ rest, ¬ source.place w.cwd <+: home.place w.cwd ++ rest ∧
      ¬ home.place w.cwd ++ rest <+: source.place w.cwd := by
    refine fun rest => ⟨fun hle => ?_, fun hle => hbelow ((List.prefix_append _ _).trans hle)⟩
    exact (List.prefix_or_prefix_of_prefix hle (List.prefix_append _ rest)).elim habove hbelow
  have haloof : ∀ entry, Aloof (· = source.place w.cwd) (TurnsBack home source w.cwd)
      (entryPlace (home.place w.cwd) entry) := by
    refine fun entry => ⟨?_, fun turn hturn => absurd hturn (hturns turn)⟩
    rintro _ rfl
    exact hapart _
  have hseparate : Separate home (directoryName name) (· = source.place w.cwd)
      (TurnsBack home source w.cwd) w := by
    refine ⟨fun turn hturn => absurd (.inl hturn) (hturns turn), ?_,
      fun entry _ => haloof entry, ?_⟩
    · rintro _ rfl
      exact (hapart _).1
    · rintro _ rfl
      exact .inl hthere
  cases route with
  | staged source => exact hseparate
  | added catalog manifest identifier force =>
    refine ⟨hseparate, haloof _, fun m hm => ?_⟩
    exact .of_straight (hlist m hm).1 (hlist m hm).2 hthere

end

variable {tree : Node} {bundle : Bundle} {source : StubSource}

/-- What is installed is staged first. -/
theorem exists_staged {route : Route} (hrun : route.run site = (.ok added, site'))
    (hnew : added.alreadyInstalled = false)
    (hsource : (route.source site.world).1 = .ok source) : ∃ bundle w₁,
      Bundle.stage source site.world = (.ok bundle, w₁) ∧ added.record.name = bundle.name ∧
      match route with
      | .staged _ => ∃ record, Registry.install bundle { site with world := w₁ }
        = (.ok record, site')
      | .added _ manifest _ force => ∃ site₂,
        register Registry.store manifest bundle force { site with world := w₁ }
          = (.ok added, site₂) ∧
        site' = { site₂ with world := Bundle.discard bundle.staging site₂.world } := by
  cases route with
  | staged source' =>
    obtain rfl := Except.ok.inj (hsource : Except.ok source' = .ok source)
    rw [run, bind_eq_ok_iff] at hrun
    obtain ⟨bundle, site₁, hstage, hrun⟩ := hrun
    rw [Work.liftM_apply, Prod.mk.injEq] at hstage
    obtain ⟨hok, rfl⟩ := hstage
    rw [bind_eq_ok_iff] at hrun
    obtain ⟨record, site₂, hinstall, hrun⟩ := hrun
    cases hrun
    exact ⟨bundle, _, Prod.ext hok rfl, name_of_install hinstall, record, hinstall⟩
  | added catalog manifest identifier force =>
    obtain ⟨bundle, w₁, site₂, hstage, hregister, hend⟩ := of_add_eq_ok hrun hnew
    rw [Bundle.ofIdentifier, bind_eq_ok_iff] at hstage
    obtain ⟨source', w₂, hfound, hstage⟩ := hstage
    have hsame := Bundle.keeps_sourceOf (I := (· = site.world)) catalog identifier site.world rfl
    rw [Route.source, hfound] at hsource
    rw [hfound] at hsame
    cases hsource
    obtain rfl : w₂ = site.world := hsame
    exact ⟨bundle, w₁, hstage, name_of_register hregister, site₂, hregister, hend⟩

/-- What was staged is installed as it is. -/
theorem find?_of_install {w₁ : World} {record : Record} (h : Settled site.registry.home site.world)
    (hstaged : bundle.Staged tree site.world w₁) (h₁ : Settled site.registry.home w₁)
    (hrun : Registry.install bundle { site with world := w₁ } = (.ok record, site')) :
    ∃ directory, site.registry.directory bundle.name = .ok directory ∧
      site'.world.find? directory = some (tree.prune Files.caches) := by
  obtain ⟨temporary, htemporary, hplace⟩ := hstaged.temporary
  have hcwd := hstaged.frame.cwd
  have hnot : ∀ entry, ¬ bundle.path.place w₁.cwd
      <+: entryPlace (site.registry.home.place w₁.cwd) entry := by
    rw [hcwd, hstaged.path, hplace]
    exact not_staged_le_entry h htemporary (hplace ▸ hstaged.vacant)
  obtain ⟨hpart, hdirectory, hvalid, hguarded, node, hnode, hthere⟩ :=
    get?_of_install h₁ (hnot _) hrun
  rw [hcwd, hstaged.copy] at hnode
  cases hnode
  refine ⟨_, hdirectory, ?_⟩
  rw [(h₁.remains hguarded.toRemains).find?_stub hpart hvalid, hguarded.cwd, hthere]

/-- What was staged is added as it is. -/
theorem find?_of_register {w₁ : World} {force : Bool}
    (h : Settled site.registry.home site.world) (hstaged : bundle.Staged tree site.world w₁)
    (h₁ : Settled site.registry.home w₁)
    (hprevious : ¬ entryPlace (site.registry.home.place site.world.cwd)
      (previousName (directoryName bundle.name)) <+: site.world.tempDir.place site.world.cwd)
    (hlist : ∀ m ∈ manifest, ∀ place, m.path.Passes site.world.cwd place →
      ¬ entryPlace (site.registry.home.place site.world.cwd) (directoryName bundle.name) <+: place)
    (hrun : register Registry.store manifest bundle force { site with world := w₁ }
      = (.ok added, site'))
    (hnew : added.alreadyInstalled = false) :
    ∃ directory, site.registry.directory bundle.name = .ok directory ∧
      (Bundle.discard bundle.staging site'.world).find? directory
        = some (tree.prune Files.caches) := by
  obtain ⟨temporary, htemporary, hplace⟩ := hstaged.temporary
  have hvacant := hstaged.vacant
  rw [hplace] at hvacant
  have hcwd := hstaged.frame.cwd
  have hpath := hstaged.path
  rw [hplace] at hpath
  obtain ⟨hdirectory, hpart, hvalid, hnot, w₂, h₂, hcwd₂, hthere, hspared⟩ :=
    get?_of_installBundle (of_register_eq_ok hrun hnew) h₁
      (hcwd.symm ▸ hstaged.copy)
      (by
        rw [hcwd, hpath]
        exact not_previous_le_staged h htemporary hvacant hprevious)
      (by
        rw [hcwd, hpath]
        exact not_staged_le_entry h htemporary hvacant)
      (hcwd.symm ▸ hlist)
  rw [hcwd] at hnot hcwd₂ hthere hspared
  rw [hpath] at hnot
  have hentry : ¬ entryPlace (site.registry.home.place site.world.cwd)
      (directoryName bundle.name) <+: site.world.tempDir.place site.world.cwd ++ [temporary] :=
    fun hle => hnot (hle.trans (List.prefix_append _ _))
  have haloof : Aloof (· = entryPlace (site.registry.home.place site.world.cwd)
      (directoryName bundle.name)) (Waypoint site.registry.home w₂)
      (bundle.staging.place w₂.cwd) := by
    rw [hcwd₂, hplace]
    refine ⟨?_, fun place hwaypoint => ?_⟩
    · rintro _ rfl
      exact ⟨hentry, not_temporary_le_entry h htemporary hvacant hentry⟩
    · refine (h.beside_temporary List.mem_cons_self htemporary hvacant).way place ?_
      rw [← hcwd₂]
      exact hwaypoint.1
  have hend : Spared _ _ w₂ (Bundle.discard bundle.staging site'.world) :=
    (enduring_spared _ _ w₂).keeps_removeTree haloof _ hspared
  refine ⟨_, hdirectory, ?_⟩
  rw [(h₂.spared hend).find?_stub hpart hvalid, hend.cwd, hcwd₂, hend.same _ rfl, hthere]

end Route

/-- What is in the directory of a stub after it was installed from a directory is what was in that
directory, without caches. The source is as it was, if it lies apart from all that changes. -/
theorem find?_run (route : Route) {source : StubSource} {tree : Node}
    (hrun : route.run site = (.ok added, site')) (hnew : added.alreadyInstalled = false)
    (hsource : (route.source site.world).1 = .ok source)
    (htree : site.world.find? source.directory = some tree)
    (hsettled : Settled site.registry.home site.world)
    (hapart : ¬ source.directory.place site.world.cwd
      <+: site.world.tempDir.place site.world.cwd)
    (hclear : route.Clear site.registry.home site.world (directoryName added.record.name)) :
    (∃ directory, site.registry.directory added.record.name = .ok directory ∧
      site'.world.find? directory = some (tree.prune Files.caches)) ∧
    (route.Avoids site.registry.home source.directory site.world added.record.name →
      site'.world.find? source.directory = some tree) := by
  obtain ⟨bundle, w₁, hstage, hname, hroute⟩ := Route.exists_staged hrun hnew hsource
  have hthere := (locate_of_find? hsettled.plain htree true).2
  have hstaged := Bundle.staged_of_stage hsettled.plain hthere hapart hstage
  have hkept := Bundle.kept_of_stage hsettled hstage
  have h₁ := hsettled.remains hkept.toRemains
  have hdirs : ∀ place, Route.TurnsBack site.registry.home source.directory site.world.cwd place →
      site.world.root.DirAt place := by
    rintro place (hturn | hturn)
    · exact (hsettled.turns place hturn).1
    · exact dirAt_of_turnsAt hsettled.plain htree hturn
  have haloof : Aloof (· = source.directory.place site.world.cwd)
      (Route.TurnsBack site.registry.home source.directory site.world.cwd)
      (bundle.staging.place site.world.cwd) :=
    hstaged.aloof (by rintro _ rfl; rw [hthere]; exact Option.some_ne_none _)
      (by rintro _ rfl; exact hapart) hdirs
  have hspared := hstaged.spared hkept haloof hdirs
  have hsame : ∀ w', Spared (· = source.directory.place site.world.cwd)
      (Route.TurnsBack site.registry.home source.directory site.world.cwd) site.world w' →
      w'.find? source.directory = some tree :=
    fun _ hw' => hw'.find?_eq hsettled.plain htree rfl fun _ => Or.inr
  rw [hname] at hclear ⊢
  cases route with
  | staged source' =>
    obtain ⟨record, hinstall⟩ := hroute
    refine ⟨Route.find?_of_install hsettled hstaged h₁ hinstall, fun hseparate => ?_⟩
    have hend := (store_stepwise.install bundle).spares hseparate { site with world := w₁ }
      ⟨rfl, hspared⟩
    have hworld : (Registry.install bundle { site with world := w₁ }).2.world = site'.world := by
      rw [hinstall]
    exact hsame _ (hworld ▸ hend.world)
  | added catalog manifest identifier force =>
    obtain ⟨site₂, hregister, rfl⟩ := hroute
    refine ⟨Route.find?_of_register hsettled hstaged h₁ hclear.1 hclear.2 hregister hnew,
      fun haside => ?_⟩
    have hend : Spared (· = source.directory.place site.world.cwd)
        (Route.TurnsBack site.registry.home source.directory site.world.cwd) site.world
        (register Registry.store manifest bundle force { site with world := w₁ }).2.world :=
      spared_register store_stepwise bundle force haside hspared
    rw [hregister] at hend
    exact hsame _ ((enduring_spared _ _ site.world).keeps_removeTree haloof _ hend)

/-- What a stub says about itself. -/
def ownMetadata : Node :=
  .file "\x7b\"name\": \"x\", \"firmware\": \x7b\"name\": \"m\"\x7d\x7d".toUTF8 false

/-- A file without text. -/
def blank : Node := .file .empty false

/-- A list that can be edited. -/
def emptyList : Node := .file "stubs = []\n".toUTF8 false

/-- A home with an old copy of the stub `x` and with what is left of one that was coming in and of
one that was moved aside, a source of the stub, and what else is beside them. -/
def sourceSite (home temporary : String) (old source beside : List (String × Node)) : Site where
  world :=
    { root := .directory ([
        ("h", .directory [("stubs", .directory [
          (incomingName "x", .directory [("s", .directory [])]),
          (previousName "x", .directory []),
          ("x", .directory old)])])]
        ++ beside ++ [
        ("src", .directory (source ++ [("modules.json", ownMetadata)])),
        ("t", .directory [])])
      cwd := []
      tempDir := ⟨temporary⟩
      clock := Request.newYear 2025 }
  registry := { home := ⟨home⟩, records := [Request.oldRecord "x"] }

/-- A source with caches, an old copy and a list. -/
def cachedSite : Site :=
  sourceSite "h" "t" [("old.pyi", blank)]
    [("__pycache__", .directory []), ("lib", .directory [(".git", blank), ("pin.pyi", blank)])]
    [("list.py", emptyList)]

theorem cachedSite_plain : cachedSite.world.root.Plain := by
  have hblank : blank.Plain := plain_file _ _
  have hmetadata : ownMetadata.Plain := plain_file _ _
  have hlist : emptyList.Plain := plain_file _ _
  have hstubs : (directory [(incomingName "x", directory [("s", directory [])]),
      (previousName "x", directory []), ("x", directory [("old.pyi", blank)])]).Plain := by
    refine plain_directory_iff.2 ⟨?_, by decide +kernel⟩
    simp [plain_directory_iff, hblank, incomingName, previousName, IsName]
  have hlib : (directory [(".git", blank), ("pin.pyi", blank)]).Plain := by
    refine plain_directory_iff.2 ⟨?_, by decide +kernel⟩
    simp [hblank, IsName]
  have hsource : (directory [("__pycache__", directory []),
      ("lib", directory [(".git", blank), ("pin.pyi", blank)]),
      ("modules.json", ownMetadata)]).Plain := by
    refine plain_directory_iff.2 ⟨?_, by decide +kernel⟩
    simp [plain_empty, IsName, hlib, hmetadata]
  refine plain_directory_iff.2 ⟨?_, (by decide : ["h", "list.py", "src", "t"].Pairwise (· < ·))⟩
  have hhome : (directory [("stubs", directory [
      (incomingName "x", directory [("s", directory [])]),
      (previousName "x", directory []), ("x", directory [("old.pyi", blank)])])]).Plain := by
    simp [plain_directory_iff, IsName, hstubs]
  simp [plain_empty, IsName, hhome, hlist, hsource]

/-- The source is staged and installed. -/
def staging : Route := .staged { directory := ⟨"/src"⟩, origin := "o" }

/-- The source is added. -/
def adding (list : Option String) (force : Bool) : Route :=
  .added ⟨"catalog"⟩ (list.map manifestAt) "src" force

/-- The answer to both. -/
def takenIn (origin : String) (listed : Bool) : Added where
  record := { name := "x", firmware := "m", source := origin, installed := Request.newYear 2025 }
  alreadyInstalled := false
  manifestUpdated := listed

/-- Neither what was there before nor the caches are in the directory of the stub after the source
was taken in, and the source has them still. -/
def Route.Cleans (route : Route) : Prop :=
  (route.run cachedSite).1.toOption.isSome ∧
    (route.run cachedSite).2.world.find? ⟨"h/stubs/x"⟩
      = some (.directory [("lib", .directory [("pin.pyi", blank)]),
        ("modules.json", ownMetadata)]) ∧
    (route.run cachedSite).2.world.find? ⟨"/src"⟩ = cachedSite.world.find? ⟨"/src"⟩

/-- Both ways to take the source in leave its caches behind. -/
theorem find?_run_of_caches : staging.Cleans ∧ (adding (some "list.py") true).Cleans := by
  suffices h : ∀ route ∈ [staging, adding (some "list.py") true], route.Cleans from
    ⟨h _ List.mem_cons_self, h _ (List.mem_cons_of_mem _ List.mem_cons_self)⟩
  intro route hroute
  simp only [List.mem_cons, List.not_mem_nil, or_false] at hroute
  obtain ⟨origin, listed, hok, hsource⟩ : ∃ origin listed,
      (route.run cachedSite).1 = .ok (takenIn origin listed) ∧
      (route.source cachedSite.world).1
        = .ok { directory := ⟨"/src"⟩, origin } := by
    obtain rfl | rfl := hroute
    · exact ⟨"o", false, by decide +kernel, by decide +kernel⟩
    · exact ⟨"/src", true, by decide +kernel, by decide +kernel⟩
  have hlist : ∀ m ∈ route.list?, ".." ∉ m.path.names ∧
      ¬ Path.place [] ⟨"h"⟩ <+: m.path.place [] ∧
      ¬ Path.place [] ⟨"/src"⟩ <+: m.path.place [] := by
    obtain rfl | rfl := hroute
    · nofun
    · rintro _ ⟨⟩
      decide +kernel
  have hsettled : Settled ⟨"h"⟩ cachedSite.world :=
    .of_straight cachedSite_plain (by decide +kernel) ⟨_, rfl⟩
  have htree : cachedSite.world.find? ⟨"/src"⟩ = some (.directory [
      ("__pycache__", .directory []),
      ("lib", .directory [(".git", blank), ("pin.pyi", blank)]),
      ("modules.json", ownMetadata)]) := rfl
  have hdirectory : cachedSite.registry.directory "x"
      = .ok ⟨"h/stubs/x"⟩ := by
    decide +kernel
  have htempDir : ¬ Path.place [] ⟨"h"⟩ <+: Path.place [] ⟨"t"⟩ := by decide +kernel
  have hapart : ¬ Path.place [] ⟨"/src"⟩ <+: Path.place [] ⟨"t"⟩ := by decide +kernel
  have hbelow : ¬ Path.place [] ⟨"h"⟩ <+: Path.place [] ⟨"/src"⟩ := by decide +kernel
  have habove : ¬ Path.place [] ⟨"/src"⟩ <+: Path.place [] ⟨"h"⟩ := by decide +kernel
  have hclear : route.Clear ⟨"h"⟩ cachedSite.world (directoryName "x") :=
    .of_straight route htempDir fun m hm => ⟨(hlist m hm).1, (hlist m hm).2.1⟩
  have havoids : route.Avoids ⟨"h"⟩ ⟨"/src"⟩ cachedSite.world "x" :=
    .of_straight route (by decide +kernel) (by decide +kernel)
      (by rw [(locate_of_find? hsettled.plain htree true).2]; exact Option.some_ne_none _)
      hbelow habove fun m hm => ⟨(hlist m hm).1, (hlist m hm).2.2⟩
  rw [Route.Cleans]
  generalize hrun : route.run cachedSite = step at hok ⊢
  obtain ⟨result, site'⟩ := step
  cases hok
  obtain ⟨⟨directory, hfound, hinstalled⟩, hsame⟩ :=
    find?_run route hrun rfl hsource htree hsettled hapart hclear
  cases hdirectory.symm.trans hfound
  exact ⟨rfl, hinstalled, (hsame havoids).trans htree.symm⟩

/-! ## What is not as it was -/

/-- What is at a path: a text, something else, or nothing. -/
def look (w : World) (p : Path) : Option (Option String) :=
  (w.find? p).map fun
    | .file data _ => String.fromUTF8? data
    | _ => none

/-- The world after a success, and the directory of the stub. -/
def Route.outcome (route : Route) (site : Site) : Option (World × Path) :=
  match route.run site with
  | (.error _, _) => none
  | (.ok taken, site') =>
    match site.registry.directory taken.record.name with
    | .error _ => none
    | .ok place => some (site'.world, place)

/-- Whether something in the directory of the stub is not what it was in the source. -/
def Route.strays (route : Route) (site : Site) (source : Path) (entry : String) : Bool :=
  (route.outcome site).any fun (w, place) =>
    look w (place.join entry) ≠ look site.world (source.join entry)

/-- Whether something in the source is not what it was. -/
def Route.meddles (route : Route) (site : Site) (source : Path) (entry : String) : Bool :=
  (route.outcome site).any fun (w, _) =>
    look w (source.join entry) ≠ look site.world (source.join entry)

/-- A directory that holds a stub, in the way that one is staged. -/
def stagedBefore : Node := .directory [("stub", .directory [("old.pyi", blank)])]

/-- The path of the home makes a directory again that was cleared for what comes in. -/
theorem strays_of_turn :
    staging.strays (sourceSite "h/stubs/.incoming-x/s/../../.." "t" [] [] []) ⟨"src"⟩ "s" := by
  decide +kernel

/-- The home is discarded with what was staged, or the way to it is. -/
theorem strays_of_discarded :
    ∀ home ∈ ["t/mpstubs-stage-XXXXXX", "t/mpstubs-stage-XXXXXX/../../h"],
      (adding none true).strays (sourceSite home "t" [] [] []) ⟨"src"⟩ "modules.json" := by
  rw [List.forall_mem_cons, List.forall_mem_singleton]
  constructor <;> decide +kernel

/-- What is staged gives way to the old copy that is moved aside to there. -/
theorem strays_of_crossing :
    (adding none true).strays
      (sourceSite "h" "h/stubs/.previous-x" [("mpstubs-stage-XXXXXX", stagedBefore)] [] [])
      ⟨"src"⟩ "old.pyi" := by
  decide +kernel

/-- The directory of a stub holds something else than the source if the stub was installed before
and is only listed, if the path of the list goes through it, if what is staged gives way to what is
moved aside, and if the path of the home goes through what is cleared or discarded, also by a link.
The source changes if the list is in it, and if it holds the home. -/
theorem find?_run_ne :
    ((adding none false).strays (sourceSite "h" "t" [] [] []) ⟨"src"⟩ "modules.json" ∧
      (adding (some "h/stubs/x/s/../list.py") true).strays
        (sourceSite "h" "t" [("list.py", emptyList), ("s", .directory [])] [] [])
        ⟨"src"⟩ "s" ∧
      (adding none true).strays
        (sourceSite "link" "t" [] [] [("link", .link "t/mpstubs-stage-XXXXXX")])
        ⟨"src"⟩ "modules.json" ∧
      (adding (some "src/list.py") true).meddles
        (sourceSite "h" "t" [] [("list.py", emptyList)] []) ⟨"src"⟩ "list.py" ∧
      staging.meddles (sourceSite "src" "t" [] [] []) ⟨"src"⟩ "registry.yaml") ∧
    (adding none true).strays
      (sourceSite "h" "h/stubs/.previous-x" [("mpstubs-stage-XXXXXX", stagedBefore)] [] [])
      ⟨"src"⟩ "old.pyi" ∧
    staging.strays (sourceSite "h/stubs/.incoming-x/s/../../.." "t" [] [] []) ⟨"src"⟩ "s" ∧
    ∀ home ∈ ["t/mpstubs-stage-XXXXXX", "t/mpstubs-stage-XXXXXX/../../h"],
      (adding none true).strays (sourceSite home "t" [] [] []) ⟨"src"⟩ "modules.json" := by
  refine ⟨?_, strays_of_crossing, strays_of_turn, strays_of_discarded⟩
  refine ⟨?_, ?_, ?_, ?_, ?_⟩ <;> decide +kernel

end Installation

end StubManager
