import StubManager.Proofs.Installation.Fidelity
import StubManager.Proofs.Installation.Planning
import StubManager.Proofs.Registry.Sources

/-!
# Additions that are repeated

An addition that succeeded and is made again without force finds the stub installed and listed, and
changes no file (`repeats_iff`): either the record goes by the identifier, or what the identifier
stands for is staged once more, found to be installed and discarded. The exception is a directory
that was added by force although its path is the name of another stub: that one is found instead
(`not_repeats_of_other`).
-/

namespace StubManager

open Node World Running Registry Transaction

variable {w w' : World} {site site' : Site} {name identifier : String} {m : Manifest}
variable {manifest : Option Manifest} {bundle : Bundle} {source : StubSource} {added : Added}

/-! ## Records in hand -/

namespace Registry

/-- A record that is put into a list is found by its name, and the others are found as before. -/
theorem find?_replaceFirst {records : List Record} {record : Record}
    (h : records.any (·.name = record.name)) (name : String) :
    (upsert.replaceFirst record records).find? (·.name = name)
      = if record.name = name then some record else records.find? (·.name = name) := by
  induction records with
  | nil => cases h
  | cons other records ih =>
    rw [upsert.replaceFirst]
    by_cases hother : other.name = record.name
    · rw [if_pos hother, List.find?_cons, List.find?_cons, hother]
      by_cases hname : record.name = name <;> simp [hname]
    · rw [List.any_cons, decide_eq_false hother, Bool.false_or] at h
      rw [if_neg hother, List.find?_cons, List.find?_cons, ih h]
      by_cases hname : record.name = name
      · have hdiffer : other.name ≠ name := fun heq => hother (heq.trans hname.symm)
        simp [hname, hdiffer]
      · simp [hname]

theorem find?_upsert (registry : Registry) (record : Record) (name : String) :
    (registry.upsert record).find? name
      = if record.name = name then some record else registry.find? name := by
  rw [upsert]
  by_cases hany : registry.records.any (·.name = record.name)
  · rw [if_pos hany]
    exact find?_replaceFirst hany name
  · rw [if_neg hany, find?, find?, List.find?_append, List.find?_singleton]
    by_cases hname : record.name = name
    · have hnone : registry.records.find? (·.name = name) = none := by
        rw [List.find?_eq_none]
        intro other hmem hother
        exact hany (List.any_eq_true.2 ⟨other, hmem, hname ▸ hother⟩)
      simp [hname, hnone]
    · simp [hname]

theorem registry_of_install {record : Record}
    (h : Registry.install bundle site = (.ok record, site')) :
    site'.registry = site.registry.upsert record := by
  rw [Registry.install, bind_apply, Work.registry_apply] at h
  dsimp only at h
  rw [bind_apply, ofExcept_apply] at h
  cases hdirectory : site.registry.directory bundle.name with
  | error failure =>
    rw [hdirectory] at h
    cases h
  | ok directory =>
    rw [hdirectory] at h
    dsimp only at h
    rw [bind_eq_ok_iff] at h
    obtain ⟨⟨⟩, site₁, hplace, h⟩ := h
    rw [Work.liftM_apply, Prod.mk.injEq] at hplace
    obtain ⟨-, rfl⟩ := hplace
    rw [bind_eq_ok_iff] at h
    obtain ⟨time, site₂, hnow, h⟩ := h
    rw [Work.liftM_apply, Prod.mk.injEq] at hnow
    obtain ⟨-, rfl⟩ := hnow
    rw [bind_apply, Work.changeRegistry_apply] at h
    dsimp only at h
    rw [bind_apply, Work.registry_apply] at h
    dsimp only at h
    rw [bind_eq_ok_iff] at h
    obtain ⟨⟨⟩, site₃, hsave, h⟩ := h
    cases h
    rw [Work.liftM_apply, Prod.mk.injEq] at hsave
    obtain ⟨-, rfl⟩ := hsave
    rfl

end Registry

/-- Whether a stub that was added goes by its name in a registry, and the others as before. -/
def Added.Joins (added : Added) (before after : Registry) : Prop :=
  ∀ name, after.find? name
    = if added.record.name = name then some added.record else before.find? name

namespace Installation

theorem registry_of_saveEdit {edit : Option (Artifact × Path)} {saved : Bool}
    (h : Work.saveEdit edit site = (.ok saved, site')) : site'.registry = site.registry := by
  cases edit with
  | none =>
    cases h
    rfl
  | some edit =>
    obtain ⟨artifact, p⟩ := edit
    rw [Work.saveEdit, bind_eq_ok_iff] at h
    obtain ⟨⟨⟩, site₁, hstep, h⟩ := h
    cases h
    rw [Work.liftM_apply, Prod.mk.injEq] at hstep
    obtain ⟨-, rfl⟩ := hstep
    rfl

theorem planEdit_eq_self {change : ChangeSet} {edit : Option (Artifact × Path)}
    (h : Work.planEdit manifest change site = (.ok edit, site')) : site' = site := by
  obtain ⟨failure, hplan⟩ | ⟨edit', hplan, -⟩ := Work.planEdit_cases manifest change site
  · rw [h] at hplan
    cases hplan
  · rw [h] at hplan
    exact (Prod.mk.inj hplan).2

theorem registry_of_listInstalled {record : Record}
    (h : listInstalled manifest record site = (.ok added, site')) :
    site'.registry = site.registry := by
  rw [listInstalled, bind_eq_ok_iff] at h
  obtain ⟨edit, site₁, hplan, h⟩ := h
  rw [bind_eq_ok_iff] at h
  obtain ⟨saved, site₂, hsave, h⟩ := h
  cases h
  rw [registry_of_saveEdit hsave, planEdit_eq_self hplan]

theorem registry_of_installBundle
    (h : installBundle Registry.store manifest bundle site = (.ok added, site')) :
    site'.registry = site.registry.upsert added.record := by
  rw [installBundle, bind_eq_ok_iff] at h
  obtain ⟨edit, site₁, hplan, h⟩ := h
  obtain rfl := planEdit_eq_self hplan
  rw [bind_apply, Work.registry_apply] at h
  dsimp only at h
  rw [bind_apply, ofExcept_apply] at h
  cases hfootprint : site₁.registry.footprint bundle.name with
  | error failure =>
    rw [hfootprint] at h
    cases h
  | ok footprint =>
    rw [hfootprint] at h
    obtain ⟨t, w₁, site₂, -, hbody, rfl⟩ := Work.begin_of_protecting_eq_ok h
    rw [bind_eq_ok_iff] at hbody
    obtain ⟨record, site₃, hinstall, hbody⟩ := hbody
    rw [bind_eq_ok_iff] at hbody
    obtain ⟨saved, site₄, hsave, hbody⟩ := hbody
    cases hbody
    have hregistry := registry_of_install hinstall
    exact (registry_of_saveEdit hsave).trans hregistry

theorem joins_of_listInstalled {record : Record} (hrecord : site.registry.find? name = some record)
    (h : listInstalled manifest record site = (.ok added, site')) :
    added.Joins site.registry site'.registry := by
  intro other
  rw [registry_of_listInstalled h, name_of_listInstalled h, name_of_find? hrecord]
  split
  · next heq => rw [← heq, hrecord]
  · rfl

theorem joins_of_installBundle
    (h : installBundle Registry.store manifest bundle site = (.ok added, site')) :
    added.Joins site.registry site'.registry := by
  intro other
  rw [registry_of_installBundle h, find?_upsert]

theorem joins_of_register {force : Bool}
    (h : register Registry.store manifest bundle force site = (.ok added, site')) :
    added.Joins site.registry site'.registry := by
  rw [register, bind_apply, Work.registry_apply] at h
  dsimp only at h
  cases hrecord : site.registry.find? bundle.name with
  | none =>
    rw [hrecord] at h
    exact joins_of_installBundle h
  | some record =>
    rw [hrecord] at h
    cases force with
    | true => exact joins_of_installBundle h
    | false => exact joins_of_listInstalled hrecord h

end Installation

/-! ## Lists -/

namespace Manifest

/-- There is nothing to do for a name that is listed. -/
theorem plan_of_lists (h : m.Lists w name) : m.plan (.adding [name]) w = (.ok none, w) := by
  obtain ⟨names, hentries, hmem⟩ := h
  obtain ⟨artifact, w₁, hload, hstep⟩ := of_bind_eq_ok hentries
  obtain ⟨rfl, -⟩ := Artifact.of_load_eq_ok hload
  rw [ofExcept_apply, Artifact.entries] at hstep
  cases hlocate : artifact.locate with
  | error failure =>
    rw [hlocate] at hstep
    cases hstep
  | ok list =>
    rw [hlocate] at hstep
    cases hstep
    have hvalid : (ChangeSet.ofNames [name] []).validate = .ok () := rfl
    have happly := Artifact.apply_of_settles hlocate hvalid
      ⟨List.forall_mem_nil _, List.forall_mem_singleton.2 hmem⟩
    rw [plan, bind_apply, hload]
    dsimp only
    rw [bind_apply, ofExcept_apply, ChangeSet.adding, happly]
    dsimp only
    rw [if_pos rfl]
    rfl

/-- A list is what it was when a stub is staged, unless the way to the temporary directory goes over
its file. -/
theorem Lists.of_ofIdentifier (h : m.Lists w name) (hplain : w.root.Plain)
    (htemporary : ∀ place, w.tempDir.Passes w.cwd place → ¬ m.path.place w.cwd <+: place)
    {catalog : Path} (hrun : Bundle.ofIdentifier catalog identifier w = (.ok bundle, w')) :
    m.Lists w' name := by
  obtain ⟨names, hentries, -⟩ := id h
  obtain ⟨artifact, w₁, hload, -⟩ := of_bind_eq_ok hentries
  obtain ⟨-, -, -, hdata⟩ := Artifact.of_load_eq_ok hload
  obtain ⟨-, -, hturns, mode, hthere⟩ := of_contents? hplain hdata
  have hspace : Spacious (Outside (· = m.path.place w.cwd)) (Outside (· = m.path.place w.cwd))
      (Aloof (· = m.path.place w.cwd) (m.path.TurnsAt w.cwd)) "mpstubs-stage-" w := by
    refine spacious_spared (List.mem_cons_self : _ ∈ temporaryStems) ?_ hturns
    rintro _ rfl
    exact ⟨htemporary, .inl (by rw [hthere]; exact Option.some_ne_none _)⟩
  obtain ⟨result, w'', hrun', hspared, -⟩ := Bundle.ofIdentifier_spacious (enduring_spared _ _ w)
    (.refl _ hplain hturns) hspace catalog identifier
  cases hrun.symm.trans hrun'
  exact h.congr ((contents?_of_spared hplain hdata hspared rfl fun _ => id).trans hdata.symm)

end Manifest

namespace Installation

/-- A stub that is installed and listed is found so, and nothing changes. -/
theorem listInstalled_of_lists {record : Record}
    (h : ∀ m ∈ manifest, m.Lists site.world record.name) :
    listInstalled manifest record site
      = (.ok { record, alreadyInstalled := true, manifestUpdated := false }, site) := by
  have hplan : Work.planEdit manifest (.adding [record.name]) site = (.ok none, site) := by
    cases manifest with
    | none => rfl
    | some m =>
      rw [Work.planEdit, bind_apply, Work.liftM_apply, m.plan_of_lists (h m rfl)]
      rfl
  rw [listInstalled, bind_apply, hplan]
  rfl

/-- Whether an addition finds a stub installed and listed, and changes no file. -/
def Repeats (catalog : Path) (manifest : Option Manifest) (identifier : String) (record : Record)
    (site : Site) : Prop :=
  ∃ w, add Registry.store catalog manifest identifier false site
      = (.ok { record, alreadyInstalled := true, manifestUpdated := false },
        { site with world := w }) ∧
    w.root = site.world.root

variable {catalog : Path} {record : Record}

theorem repeats_of_find? (hrecord : site.registry.find? identifier = some record)
    (hlist : ∀ m ∈ manifest, m.Lists site.world record.name) :
    Repeats catalog manifest identifier record site := by
  refine ⟨site.world, ?_, rfl⟩
  rw [add, bind_apply, Work.registry_apply]
  dsimp only
  rw [hrecord]
  exact listInstalled_of_lists hlist

theorem repeats_of_ofIdentifier (hnone : site.registry.find? identifier = none)
    (hstage : Bundle.ofIdentifier catalog identifier site.world = (.ok bundle, w))
    (hrecord : site.registry.find? bundle.name = some record)
    (hlist : ∀ m ∈ manifest, m.Lists w record.name)
    (hroot : (Bundle.discard bundle.staging w).root = site.world.root) :
    Repeats catalog manifest identifier record site := by
  refine ⟨_, ?_, hroot⟩
  have hregister : register Registry.store manifest bundle false { site with world := w }
      = (.ok { record, alreadyInstalled := true, manifestUpdated := false },
        { site with world := w }) := by
    rw [register, bind_apply, Work.registry_apply]
    dsimp only
    rw [hrecord]
    exact listInstalled_of_lists hlist
  rw [add, bind_apply, Work.registry_apply]
  dsimp only
  rw [hnone]
  dsimp only
  rw [bind_apply, Work.liftM_apply, hstage]
  dsimp only
  rw [Work.andFinally, hregister]

end Installation

/-! ## Directories that are staged again -/

/-- Whether an addition goes over a directory: the paths of the home and of a source turn back
there, or it is on the way to the temporary directories. -/
def Crossing (home p : Path) (w : World) (place : List String) : Prop :=
  home.TurnsAt w.cwd place ∨ p.TurnsAt w.cwd place ∨ OnWay w.tempDir w.cwd place

/-- Whether a directory can be staged again after it was added as the stub of a name: it is aside
from all that changes with the stub, and the way to the temporary directories does not go into
it. These do not lie in the home. -/
structure Revisited (home p : Path) (manifest : Option Manifest) (w : World) (name : String) :
    Prop where
  settled : Settled home w
  aside : Aside home manifest (· = p.place w.cwd) (Crossing home p w) w name
  way : ∀ place, w.tempDir.Passes w.cwd place → ¬ p.place w.cwd <+: place
  temporary : ¬ home.place w.cwd <+: w.tempDir.place w.cwd

/-- What is aside stays so with directories that do not lie in the home. -/
theorem Aside.with_dirs {home : Path} {kept dirs dirs' : List String → Prop}
    (h : Aside home manifest kept dirs w name)
    (hdirs : ∀ turn, dirs' turn → dirs turn ∨ ¬ home.place w.cwd <+: turn) :
    Aside home manifest kept dirs' w name := by
  have haloof : ∀ entry, Aloof kept dirs (entryPlace (home.place w.cwd) entry) →
      Aloof kept dirs' (entryPlace (home.place w.cwd) entry) := by
    refine fun entry hentry => ⟨hentry.kept, fun turn hturn hle => ?_⟩
    obtain hturn | hnot := hdirs turn hturn
    · exact hentry.dirs turn hturn hle
    · exact hnot ((List.prefix_append _ _).trans hle)
  exact ⟨⟨h.turns, h.index, fun entry hentry => haloof entry (h.entries entry hentry), h.drafts⟩,
    haloof _ h.previous, h.list⟩

/-- A directory beside the home and the temporary directories and not above the list, by paths that
never turn back. -/
theorem Revisited.of_straight {home p : Path} (hsettled : Settled home w)
    (hhome : ".." ∉ home.names) (hp : ".." ∉ p.names) (htempDir : ".." ∉ w.tempDir.names)
    (hthere : w.root.get? (p.place w.cwd) ≠ none)
    (hbelow : ¬ home.place w.cwd <+: p.place w.cwd)
    (habove : ¬ p.place w.cwd <+: home.place w.cwd)
    (htemporary : ¬ home.place w.cwd <+: w.tempDir.place w.cwd)
    (hway : ¬ p.place w.cwd <+: w.tempDir.place w.cwd)
    (hlist : ∀ m ∈ manifest, ".." ∉ m.path.names ∧ ¬ p.place w.cwd <+: m.path.place w.cwd) :
    Revisited home p manifest w name where
  settled := hsettled
  aside := by
    have havoids : Aside home manifest (· = p.place w.cwd)
        (Installation.Route.TurnsBack home p w.cwd) w name :=
      Installation.Route.Avoids.of_straight (.added home manifest name false) hhome hp hthere hbelow
        habove hlist
    refine havoids.with_dirs ?_
    rintro turn (hturn | hturn | (hturn | rfl))
    · exact .inl (.inl hturn)
    · exact .inl (.inr hturn)
    · exact absurd hturn (Path.not_turnsAt_of_not_mem htempDir _ turn)
    · exact .inr htemporary
  way _ hpasses hle := hway (hle.trans (hpasses.le_of_straight htempDir))
  temporary := htemporary

/-- A directory is found again where the way to it is kept. -/
theorem Spared.find?_directory {kept : List String → Prop} {p : Path}
    (h : Spared kept (OnWay p w.cwd) w w') (hvalid : Valid p) :
    ∃ entries, w'.find? p = some (.directory entries) := by
  obtain ⟨entries, hentries⟩ := h.dir _ (.inr rfl)
  refine ⟨entries, (find?_eq_some_iff h.plain).2 ⟨hvalid, fun v hv => ?_, by rw [h.cwd, hentries]⟩⟩
  rw [onWay, h.cwd] at hv
  obtain ⟨turn, hturn, hle⟩ | hle := (passes_of_mem_onWay hv).le
  · exact (h.dir turn (.inl hturn)).of_below hle
  · exact DirAt.of_below ⟨entries, hentries⟩ hle

namespace Installation

variable {p : Path} {w₁ : World} {registry : Registry} {force : Bool} {catalog : Path}

/-- A stub that is registered leaves the way to where it was staged. -/
theorem spared_staging (force : Bool) {temporary : String} {entries : List (String × Node)}
    (h : Revisited registry.home p manifest w bundle.name) (hkept : Kept registry.home w w₁)
    (htemporary : IsName temporary) (hstaging : bundle.staging = w.tempDir.join temporary)
    (hfind : w₁.find? bundle.staging = some (.directory entries)) :
    Spared (fun _ => False) (OnWay bundle.staging w₁.cwd) w₁
      (register Registry.store manifest bundle force { world := w₁, registry }).2.world := by
  have hcwd := hkept.cwd
  -- No entry that is cleared or moved aside lies above the directory or on the way to it.
  have haloof : ∀ entry, (∀ turn, Crossing registry.home p w turn →
        ¬ entryPlace (registry.home.place w.cwd) entry <+: turn) →
      Aloof (fun _ => False) (OnWay bundle.staging w₁.cwd)
        (entryPlace (registry.home.place w₁.cwd) entry) := by
    intro entry hentry
    refine ⟨fun _ => False.elim, ?_⟩
    rw [hcwd, hstaging]
    rintro turn (hturn | rfl)
    · exact hentry turn (.inr (.inr (.inl ((Path.turnsAt_join htemporary).1 hturn))))
    · rw [Path.place_join _ htemporary, List.prefix_concat_iff]
      rintro (heq | hle)
      · rw [entryPlace_eq] at heq
        exact h.temporary ((List.append_inj' heq rfl).1 ▸ List.prefix_append _ _)
      · exact hentry _ (.inr (.inr (.inr rfl))) hle
  have haside : Aside registry.home manifest (fun _ => False) (OnWay bundle.staging w₁.cwd) w₁
      bundle.name := by
    refine ⟨⟨fun _ _ _ => False.elim, fun _ => False.elim, fun entry hentry => ?_,
      fun _ => False.elim⟩, ?_, fun m hm => ⟨fun _ _ _ => False.elim, fun _ => False.elim⟩⟩
    · exact haloof entry (h.aside.entries entry hentry).dirs
    · exact haloof _ h.aside.previous.dirs
  refine spared_register store_stepwise bundle force haside (.refl _ hkept.plain ?_)
  rintro turn (hturn | rfl)
  · exact dirAt_of_turnsAt hkept.plain hfind hturn
  · exact ⟨entries, (locate_of_find? hkept.plain hfind true).2⟩

/-- What was staged is gone when the stub was registered and it was discarded. -/
theorem get?_discard_of_register (force : Bool) {tree : Node}
    (h : Revisited registry.home p manifest w bundle.name)
    (hstage : Bundle.stage source w = (.ok bundle, w₁))
    (htree : w.find? source.directory = some tree)
    (hapart : ¬ source.directory.place w.cwd <+: w.tempDir.place w.cwd) :
    (Bundle.discard bundle.staging (register Registry.store manifest bundle force
      { world := w₁, registry }).2.world).root.get? (bundle.staging.place w.cwd) = none := by
  have hplain := h.settled.plain
  have hproper := Bundle.proper_of_stem (List.mem_cons_self : _ ∈ temporaryStems)
  have hkept := Bundle.kept_of_stage h.settled hstage
  obtain ⟨entries, hfind⟩ := Bundle.find?_staging hplain htree hapart hstage
  obtain ⟨staging, w₀, hmake, hfill⟩ := Bundle.of_stage_eq_ok hstage
  obtain ⟨rfl, -⟩ := Bundle.of_fill_eq_ok hfill
  obtain ⟨temporary, hmem, hstaging, hplace, -⟩ :=
    Files.of_makeTemporary_eq_ok hplain hproper hmake
  have hname := Files.isName_of_mem_temporaryNames hproper.1 hproper.2 hmem
  have hspared := spared_staging force h hkept hname hstaging hfind
  generalize (register Registry.store manifest bundle force { world := w₁, registry }).2.world = w₂
    at hspared
  obtain ⟨inside, hinside⟩ := hspared.find?_directory ((find?_eq_some_iff hkept.plain).1 hfind).1
  have hthere := (locate_of_find? hspared.plain hinside true).2
  rw [Bundle.discard, quietly_apply, Files.removeTree_of_isDirectory hspared.plain hinside]
  rw [hspared.cwd, hkept.cwd, hplace] at hthere ⊢
  exact hspared.plain.get?_alter_self (dirAt_of_get? hthere)

/-- A directory that was staged and added is staged again, and discarded without a trace. -/
theorem exists_ofIdentifier
    (h : Revisited site.registry.home ⟨identifier⟩ manifest site.world bundle.name)
    (hdirectory : site.world.isDirectory ⟨identifier⟩)
    (hrun : add Registry.store catalog manifest identifier force site = (.ok added, site'))
    (hstage : Bundle.ofIdentifier catalog identifier site.world = (.ok bundle, w₁))
    (hend : site'.world = Bundle.discard bundle.staging (register Registry.store manifest bundle
      force { site with world := w₁ }).2.world) : ∃ again v,
      Bundle.ofIdentifier catalog identifier site'.world = (.ok again, v) ∧
        again.name = bundle.name ∧
        (Bundle.discard again.staging v).root = site'.world.root := by
  obtain ⟨w, registry⟩ := site
  dsimp only at *
  obtain ⟨entries, hfind⟩ := isDirectory_iff.1 hdirectory
  have hplain := h.settled.plain
  have hthere := (locate_of_find? hplain hfind true).2
  have hnames := hplain.isName_of_mem hthere
  have hproper := Bundle.proper_of_stem (List.mem_cons_self : _ ∈ temporaryStems)
  -- The first time the directory was staged from the path of its place.
  have hfirst := hstage
  rw [Bundle.ofIdentifier, bind_apply, Bundle.sourceOf_of_isDirectory hplain catalog hdirectory]
    at hfirst
  dsimp only at hfirst
  have hvalid := Bundle.valid_of_stage hplain hfirst
  have htree := find?_ofPlace hplain hthere hvalid
  have htree := Bundle.find?_localSource hplain hthere hvalid
  have hapart := h.way _ (Path.passes_place _ _)
  rw [← Bundle.place_localSource hnames w.cwd] at hapart
  obtain ⟨staging, w₀, hmake, -⟩ := Bundle.of_stage_eq_ok hfirst
  obtain ⟨hdir, hturns⟩ := Files.dirAt_of_makeTemporary hplain hproper hmake
  have hfree := get?_discard_of_register force h hfirst htree hapart
  rw [← hend] at hfree
  -- The addition spares the directory and the way to all that staging needs.
  have hunhandled : ∀ place, place = Path.place w.cwd ⟨identifier⟩ →
      Unhandled temporaryStems w place := by
    rintro _ rfl
    exact ⟨h.way, .inl (by rw [hthere]; exact Option.some_ne_none _)⟩
  have hdirs : ∀ turn, Crossing registry.home ⟨identifier⟩ w turn → w.root.DirAt turn := by
    rintro turn (hturn | hturn | (hturn | rfl))
    · exact (h.settled.turns turn hturn).1
    · exact dirAt_of_turnsAt hplain hfind hturn
    · exact hturns turn hturn
    · exact hdir
  have hnamed : ∀ other, (Bundle.ofIdentifier catalog identifier w).1 = .ok other →
      other.name = bundle.name := by
    intro other hother
    rw [hstage] at hother
    cases hother
    rfl
  have hspared : Spared (· = Path.place w.cwd ⟨identifier⟩) (Crossing registry.home ⟨identifier⟩ w)
      w (add Registry.store catalog manifest identifier force { world := w, registry }).2.world :=
    spared_add hunhandled store_stepwise catalog identifier force h.aside hnamed
      (.refl _ hplain hdirs)
  rw [hrun] at hspared
  have hagain : site'.world.find? ⟨identifier⟩ = some (.directory entries) :=
    hspared.find?_eq hplain hfind rfl fun _ hturn => .inr (.inl hturn)
  have htree' := Bundle.find?_localSource hspared.plain ((hspared.same _ rfl).trans hthere) hvalid
  have hsource := Bundle.sourceOf_of_isDirectory hspared.plain catalog
    (isDirectory_iff.2 ⟨_, hagain⟩)
  rw [hspared.cwd] at hsource
  have hturns' : ∀ turn, site'.world.tempDir.TurnsAt site'.world.cwd turn →
      site'.world.root.DirAt turn := by
    intro turn hturn
    rw [hspared.cwd, hspared.tempDir] at hturn
    exact hspared.dir turn (.inr (.inr (.inl hturn)))
  have hdir' : site'.world.root.DirAt (site'.world.tempDir.place site'.world.cwd) := by
    rw [hspared.cwd, hspared.tempDir]
    exact hspared.dir _ (.inr (.inr (.inr rfl)))
  obtain ⟨again, v, hsecond, hsame⟩ := Bundle.exists_stage
    (Bundle.name_localSource (Path.place w.cwd ⟨identifier⟩)) (Bundle.hash_localSource _) hplain
    htree hapart hfirst hspared.plain hspared.cwd hspared.tempDir htree' hturns' hdir' hfree
  refine ⟨again, v, ?_, hsame, ?_⟩
  · rw [Bundle.ofIdentifier, bind_apply, hsource]
    exact hsecond
  · refine Bundle.root_discard hspared.plain htree' ?_ hsecond
    rw [hspared.cwd, hspared.tempDir]
    exact hapart

/-- The list can be read and holds the name after an addition, and no temporary directory gets in
its way. -/
theorem lists_of_add (hrun : add Registry.store catalog (some m) identifier force site
      = (.ok added, site'))
    (hbreak : '\n' ∉ added.record.name.toList)
    (h : m.Detached site.registry.home site.world added.record.name) :
    m.Lists site'.world added.record.name ∧ site'.world.root.Plain ∧
      ∀ place, site'.world.tempDir.Passes site'.world.cwd place →
        ¬ m.path.place site'.world.cwd <+: place := by
  obtain ⟨hspared, -, hlists⟩ := enlists_add hrun h
  refine ⟨hlists.2 (.inl hbreak), hspared.plain, ?_⟩
  rw [hspared.cwd, hspared.tempDir]
  exact h.temporary

/-- An addition that succeeded is repeated without a change, unless it was forced and found a stub
of another name although there is one that goes by the identifier. -/
theorem repeats_iff
    (hrun : add Registry.store catalog manifest identifier force site = (.ok added, site'))
    (hbreak : '\n' ∉ added.record.name.toList)
    (hlist : ∀ m ∈ manifest, m.Detached site.registry.home site.world added.record.name)
    (hlocal : site.world.isDirectory ⟨identifier⟩ → added.record.name ≠ identifier →
      Revisited site.registry.home ⟨identifier⟩ manifest site.world added.record.name) :
    Repeats catalog manifest identifier added.record site' ↔
      (force = true → added.record.name ≠ identifier →
        site.registry.find? identifier = none) := by
  have hlisted : ∀ m ∈ manifest, m.Lists site'.world added.record.name ∧ site'.world.root.Plain ∧
      ∀ place, site'.world.tempDir.Passes site'.world.cwd place →
        ¬ m.path.place site'.world.cwd <+: place := by
    intro m hm
    obtain rfl : manifest = some m := hm
    exact lists_of_add hrun hbreak (hlist m rfl)
  have hlists := fun m hm => (hlisted m hm).1
  obtain ⟨record, hrecord, hinstalled⟩ | ⟨hforce, bundle, w₁, site₂, hstage, hregister, hend⟩ :=
    add_cases hrun
  · have hname : added.record.name = identifier := by
      rw [name_of_listInstalled hinstalled, name_of_find? hrecord]
    have hagain := joins_of_listInstalled hrecord hinstalled identifier
    rw [if_pos hname] at hagain
    exact iff_of_true (repeats_of_find? hagain hlists) fun _ hne => absurd hname hne
  have hjoins : added.Joins site.registry site'.registry := by
    have hjoined := joins_of_register hregister
    rwa [hend]
  have hagain := hjoins identifier
  by_cases hname : added.record.name = identifier
  · rw [if_pos hname] at hagain
    exact iff_of_true (repeats_of_find? hagain hlists) fun _ hne => absurd hname hne
  rw [if_neg hname] at hagain
  cases hfound : site.registry.find? identifier with
  | some other =>
    rw [hfound] at hagain hforce
    have hforced : force = true := hforce.resolve_right (Option.some_ne_none _)
    refine iff_of_false ?_ fun h => Option.some_ne_none _ (h hforced hname)
    rintro ⟨w, hsecond, -⟩
    rw [add, bind_apply, Work.registry_apply] at hsecond
    dsimp only at hsecond
    rw [hagain] at hsecond
    have hrecord := name_of_listInstalled
      (show listInstalled manifest other site' = _ from hsecond)
    exact hname ((congrArg Record.name hrecord).trans (name_of_find? hfound))
  | none =>
    rw [hfound] at hagain
    refine iff_of_true ?_ fun _ _ => rfl
    have hdirectory : site.world.isDirectory ⟨identifier⟩ := by
      by_contra hnot
      rw [Bundle.ofIdentifier, bind_eq_ok_iff] at hstage
      obtain ⟨source, w₂, hsource, hstage⟩ := hstage
      have hsame := Bundle.name_of_stage hstage (Bundle.name_of_sourceOf hsource hnot)
      exact hname ((name_of_register hregister).trans hsame)
    have hrevisited := hlocal hdirectory hname
    rw [name_of_register hregister] at hrevisited
    obtain ⟨again, v, hsecond, hsame, hroot⟩ :=
      exists_ofIdentifier hrevisited hdirectory hrun hstage (by rw [hend, hregister])
    have hrecord := hjoins again.name
    rw [hsame, ← name_of_register hregister, if_pos rfl, name_of_register hregister, ← hsame]
      at hrecord
    refine repeats_of_ofIdentifier hagain hsecond hrecord (fun m hm => ?_) hroot
    obtain ⟨hlists, hplain, htemporary⟩ := hlisted m hm
    exact hlists.of_ofIdentifier hplain htemporary hsecond

/-- The source is added under the name `x` and then staged again. -/
theorem repeats_of_other_name :
    (add Registry.store ⟨"catalog"⟩ (some (manifestAt "list.py")) "src" true cachedSite).1
        = .ok (takenIn "/src" true) ∧
      Repeats ⟨"catalog"⟩ (some (manifestAt "list.py")) "src" (takenIn "/src" true).record
        (add Registry.store ⟨"catalog"⟩ (some (manifestAt "list.py")) "src" true cachedSite).2 := by
  have hok : (add Registry.store ⟨"catalog"⟩ (some (manifestAt "list.py")) "src" true cachedSite).1
      = .ok (takenIn "/src" true) := by
    decide +kernel
  refine ⟨hok, ?_⟩
  generalize hrun : add Registry.store ⟨"catalog"⟩ (some (manifestAt "list.py")) "src" true
    cachedSite = step at hok ⊢
  obtain ⟨result, site'⟩ := step
  cases hok
  have hsettled : Settled ⟨"h"⟩ cachedSite.world :=
    .of_straight cachedSite_plain (by decide +kernel) ⟨_, rfl⟩
  refine (repeats_iff hrun (by decide) ?_ fun _ _ => ?_).2 fun _ _ => by decide +kernel
  · rintro _ ⟨⟩
    exact .of_straight hsettled (by decide +kernel) (by decide +kernel) (by decide +kernel)
      (by decide +kernel) (by decide +kernel) (by decide +kernel)
  · refine .of_straight hsettled (by decide +kernel) (by decide +kernel) (by decide +kernel) ?_
      (by decide +kernel) (by decide +kernel) (by decide +kernel) (by decide +kernel) ?_
    · decide +kernel
    · rintro _ ⟨⟩
      decide +kernel

/-- A registry that has a stub by the name of the source as well. -/
def rivalSite : Site :=
  { cachedSite with
    registry := { home := ⟨"h"⟩, records := [Request.oldRecord "x", Request.oldRecord "src"] } }

/-- A list in the old copy of the stub. -/
def nestedSite : Site :=
  sourceSite "h" "t" [("list.py", .file "stubs = ['x']\n".toUTF8 false)] [] []

/-- Additions that succeeded and are not repeated: of a directory that was added by force although
its path is the name of another stub, which is listed then, and to a list that is lost with the old
copy of the stub. -/
theorem not_repeats_of_other :
    ((add Registry.store ⟨"catalog"⟩ (some (manifestAt "list.py")) "src" true rivalSite).1
        = .ok (takenIn "/src" true) ∧
      (add Registry.store ⟨"catalog"⟩ (some (manifestAt "list.py")) "src" false
        (add Registry.store ⟨"catalog"⟩ (some (manifestAt "list.py")) "src" true rivalSite).2).1
        = .ok { record := Request.oldRecord "src", alreadyInstalled := true,
                manifestUpdated := true }) ∧
    ((add Registry.store ⟨"catalog"⟩ (some (manifestAt "h/stubs/x/list.py")) "src" true
        nestedSite).1 = .ok (takenIn "/src" false) ∧
      (add Registry.store ⟨"catalog"⟩ (some (manifestAt "h/stubs/x/list.py")) "src" false
        (add Registry.store ⟨"catalog"⟩ (some (manifestAt "h/stubs/x/list.py")) "src" true
          nestedSite).2).1.isOk = false) := by
  decide +kernel

end Installation

end StubManager
