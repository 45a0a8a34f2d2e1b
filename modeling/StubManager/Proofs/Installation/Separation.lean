import StubManager.Proofs.Installation.Persistence
import StubManager.Proofs.Registry.Naming
import StubManager.Proofs.Registry.Sparing
import StubManager.Proofs.Transaction.Targets

/-!
# Stubs are changed one at a time

Every request is about one stub, and leaves the trees of all others as they are, whether it succeeds
or fails (`spares_others`). The stubs that a stub comes in by and is moved aside to are no others:
they lose their files (`lost_of_helper`).
-/

namespace StubManager

open Node World Running Registry Transaction

variable {α : Type} {kept dirs : List String → Prop} {w : World} {site : Site} {base : Path}
variable {manifest : Option Manifest} {store : Store}

/-! ## Places apart from a change -/

/-- Whether replacing a file leaves the kept trees alone. -/
structure Replaceable (kept : List String → Prop) (w : World) (p : Path) : Prop where
  way : ∀ place, p.Passes w.cwd place → Outside kept place
  draft : ∀ place, kept place → Undrafted p w place

/-- A path that never turns back, in front of a tree that is there. -/
theorem Replaceable.of_straight {place : List String} {p : Path} (hstraight : ".." ∉ p.names)
    (hnot : ¬ place <+: p.place w.cwd) (hthere : w.root.get? place ≠ none) :
    Replaceable (· = place) w p where
  way := by
    rintro other hpasses _ rfl hle
    exact hnot (hle.trans (hpasses.le_of_straight hstraight))
  draft := by
    rintro _ rfl
    exact .inl hthere

/-- Whether kept trees are apart from all that the change of a stub touches. -/
structure Aside (home : Path) (manifest : Option Manifest) (kept dirs : List String → Prop)
    (w : World) (name : String) : Prop extends Separate home (directoryName name) kept dirs w where
  previous :
    Aloof kept dirs (entryPlace (home.place w.cwd) (previousName (directoryName name)))
  list : ∀ m ∈ manifest, Replaceable kept w m.path

namespace Work

/-- Planning changes nothing; the list of a plan is a file, which goes by a name. -/
theorem planEdit_replaceable (hlist : ∀ m ∈ manifest, Replaceable kept w m.path)
    (hplain : site.world.root.Plain) (change : ChangeSet) :
    (∃ failure, planEdit manifest change site = (.error failure, site)) ∨
      ∃ edit, planEdit manifest change site = (.ok edit, site) ∧
        ∀ p ∈ edit.map (·.2), Replaceable kept w p ∧ ∃ name, IsName name ∧ p.EndsWith name := by
  obtain hplan | ⟨edit, hplan, hfile, hedit⟩ := planEdit_cases manifest change site
  · exact .inl hplan
  · refine .inr ⟨edit, hplan, fun p hp => ?_⟩
    obtain ⟨m, hm, rfl⟩ := hedit p hp
    obtain ⟨data, mode, hfind⟩ := hfile m hm
    exact ⟨hlist m hm, endsWith_of_isFile hplain hfind⟩

theorem spared_saveEdit {edit : Option (Artifact × Path)}
    (hedit : ∀ p ∈ edit.map (·.2),
      Replaceable kept w p ∧ ∃ name, IsName name ∧ p.EndsWith name) :
    Keeps (Underway base (Spared kept dirs w)) (saveEdit edit) := by
  cases edit with
  | none => exact keeps_pure _
  | some edit =>
    obtain ⟨artifact, p⟩ := edit
    obtain ⟨hp, name, hname, hends⟩ := hedit p rfl
    have hsave : Keeps (Spared kept dirs w) (artifact.save p) :=
      (spared_replace hname hends hp.way hp.draft _).adapt _
    exact (keeps_onWorld hsave).bind fun _ _ _ _ => keeps_pure _

end Work

namespace Installation

/-! ## Operations on one stub -/

theorem spared_listInstalled (hlist : ∀ m ∈ manifest, Replaceable kept w m.path)
    (hw : Spared kept dirs w site.world) (record : Record) :
    Spared kept dirs w (listInstalled manifest record site).2.world := by
  rw [listInstalled, bind_apply]
  obtain ⟨failure, hplan⟩ | ⟨edit, hplan, hedit⟩ :=
    Work.planEdit_replaceable hlist hw.plain (.adding [record.name])
  · rwa [hplan]
  · rw [hplan]
    dsimp only
    rw [bind_pure_apply]
    exact (Work.spared_saveEdit hedit site ⟨rfl, hw⟩).world

/-- A change of a stub that is planned and then made under protection. -/
theorem spared_of_planned {change : ChangeSet} {name : String}
    {body : Option (Artifact × Path) → Work α}
    (h : Aside site.registry.home manifest kept dirs w name)
    (hw : Spared kept dirs w site.world)
    (hbody : ∀ edit, (∀ p ∈ edit.map (·.2),
        Replaceable kept w p ∧ ∃ name, IsName name ∧ p.EndsWith name) →
      Keeps (Underway site.registry.home (Spared kept dirs w)) (body edit)) :
    Spared kept dirs w ((do
      let edit ← Work.planEdit manifest change
      let footprint ← MonadExcept.ofExcept ((← Work.registry).footprint name)
      Work.protecting (footprint.targets (edit.map (·.2))) (body edit) : Work α) site).2.world := by
  rw [bind_apply]
  obtain ⟨failure, hplan⟩ | ⟨edit, hplan, hedit⟩ :=
    Work.planEdit_replaceable h.list hw.plain change
  · rwa [hplan]
  rw [hplan]
  dsimp only
  rw [bind_apply, Work.registry_apply]
  dsimp only
  rw [bind_apply]
  cases hfootprint : site.registry.footprint name with
  | error failure => exact hw
  | ok footprint =>
    obtain ⟨hname, hfiles, hdirectory⟩ := Registry.footprint_eq_ok hfootprint
    refine Work.keeps_protecting (enduring_spared kept dirs w) ?_ hw fun w' hw' =>
      (hbody edit hedit { site with world := w' } ⟨rfl, hw'⟩).world
    rw [Footprint.targets, hfiles, hdirectory, List.map_singleton, List.singleton_append,
      List.cons_append, List.singleton_append, List.forall_mem_cons, List.forall_mem_cons]
    refine ⟨?_, ⟨?_, ?_⟩, fun target htarget => ?_⟩
    · exact h.index_way (Path.passes_place _ _)
    · rw [place_stubPath _ hname]
      exact h.entries _ (.inl rfl)
    · rw [place_of_under (preservedPath_stub _ hname)]
      exact h.previous
    · obtain ⟨p, hp, rfl⟩ := List.mem_map.1 htarget
      exact (hedit p (Option.mem_toList.1 hp)).1.way _ (Path.passes_place _ _)

theorem spared_installBundle (hstore : store.Stepwise) (bundle : Bundle)
    (h : Aside site.registry.home manifest kept dirs w bundle.name)
    (hw : Spared kept dirs w site.world) :
    Spared kept dirs w (installBundle store manifest bundle site).2.world := by
  refine spared_of_planned h hw fun edit hedit => ?_
  exact ((hstore.install bundle).spares h.toSeparate).bind fun _ _ _ _ =>
    (Work.spared_saveEdit hedit).bind fun _ _ _ _ => keeps_pure _

theorem spared_register (hstore : store.Stepwise) (bundle : Bundle) (force : Bool)
    (h : Aside site.registry.home manifest kept dirs w bundle.name)
    (hw : Spared kept dirs w site.world) :
    Spared kept dirs w (register store manifest bundle force site).2.world := by
  rw [register, bind_apply, Work.registry_apply]
  dsimp only
  cases site.registry.find? bundle.name with
  | none => exact spared_installBundle hstore bundle h hw
  | some record =>
    cases force with
    | false => exact spared_listInstalled h.list hw record
    | true => exact spared_installBundle hstore bundle h hw

theorem spared_remove (hstore : store.Stepwise) (name : String)
    (h : Aside site.registry.home manifest kept dirs w name)
    (hw : Spared kept dirs w site.world) :
    Spared kept dirs w (remove store manifest name site).2.world := by
  rw [remove, bind_apply, Work.registry_apply]
  dsimp only
  split
  · exact hw
  · refine spared_of_planned h hw fun edit hedit => ?_
    exact (Work.spared_saveEdit hedit).bind fun _ _ _ _ =>
      ((hstore.uninstall name).spares h.toSeparate).bind fun _ _ _ _ => keeps_pure _

/-- A stub is staged, registered and removed from where it was staged. -/
theorem spared_of_staged (hstore : store.Stepwise) (force : Bool) {name : String}
    {stage : Action Failure Bundle} (h : Aside site.registry.home manifest kept dirs w name)
    (hname : ∀ bundle, (stage site.world).1 = .ok bundle → bundle.name = name)
    (hstage : ∃ result w', stage site.world = (result, w') ∧ Spared kept dirs w w' ∧
      ∀ bundle, result = .ok bundle →
        Workspace (Outside kept) (Outside kept) (Aloof kept dirs) w.cwd bundle.staging) :
    Spared kept dirs w ((do
      let bundle ← stage
      (register store manifest bundle force).andFinally (Bundle.discard bundle.staging) :
        Work Added) site).2.world := by
  obtain ⟨result, w', hrun, hw', hroom⟩ := hstage
  rw [hrun] at hname
  rw [bind_apply, Work.liftM_apply, hrun]
  cases result with
  | error failure => exact hw'
  | ok bundle =>
    obtain rfl := hname bundle rfl
    have hregister : Spared kept dirs w
        (register store manifest bundle force { site with world := w' }).2.world :=
      spared_register hstore bundle force h hw'
    exact (enduring_spared kept dirs w).keeps_removeTree (hroom bundle rfl).room.loose _ hregister

variable (htemporary : ∀ place, kept place → Unhandled temporaryStems w place)
include htemporary

/-- There is room for a temporary directory at every world on the way. -/
theorem spacious_of_spared {stem : String} (hstem : stem ∈ temporaryStems)
    (hw : Spared kept dirs w site.world) :
    Spacious (Outside kept) (Outside kept) (Aloof kept dirs) stem site.world :=
  spacious_spared hstem (fun place hplace => (htemporary place hplace).spared hw hplace) hw.dir

theorem spared_add (hstore : store.Stepwise) (catalog : Path) (identifier : String) (force : Bool)
    {name : String} (h : Aside site.registry.home manifest kept dirs w name)
    (hname : ∀ bundle, (Bundle.ofIdentifier catalog identifier site.world).1 = .ok bundle →
      bundle.name = name)
    (hw : Spared kept dirs w site.world) :
    Spared kept dirs w (add store catalog manifest identifier force site).2.world := by
  have hstage := Bundle.ofIdentifier_spacious (hw.cwd ▸ enduring_spared kept dirs w) hw
    (spacious_of_spared htemporary List.mem_cons_self hw) catalog identifier
  rw [hw.cwd] at hstage
  have hstaged := spared_of_staged hstore force h hname hstage
  rw [add, bind_apply, Work.registry_apply]
  dsimp only
  cases site.registry.find? identifier with
  | none => exact hstaged
  | some record =>
    cases force with
    | false => exact spared_listInstalled h.list hw record
    | true => exact hstaged

theorem spared_installGenerated (hstore : store.Stepwise) (port : String) (directory : Path)
    {name : String} (h : Aside site.registry.home manifest kept dirs w name)
    (hname : ∀ bundle, (Extraction.stageGenerated port directory site.world).1 = .ok bundle →
      bundle.name = name)
    (hw : Spared kept dirs w site.world) :
    Spared kept dirs w
      (Extraction.installGenerated store manifest port directory site).2.world := by
  have hstage := stageGenerated_spacious (hw.cwd ▸ enduring_spared kept dirs w) hw
    (spacious_of_spared htemporary List.mem_cons_self hw) port directory
  rw [hw.cwd] at hstage
  exact spared_of_staged hstore true h hname hstage

end Installation

namespace Extraction

open Installation

variable {δ β : Type} {transport : Transport δ} {name : String}

/-! ## Extractions -/

/-- The part of an extraction that stages what a device generated. -/
def stagedIn (workdir : Path) (transport : Transport δ) (request : ExtractionRequest) :
    DeviceWork δ Bundle := do
  let script ← onWorld (stageScript request workdir)
  match ← ExceptT.lift (onLink (Session.start transport request.port)).run with
  | .error failure => throw failure
  | .ok session =>
    let directory ← onLink (session.conduct transport (generate transport script workdir))
    onWorld (stageGenerated request.port directory)

/-- What an extraction stages. -/
def staged (transport : Transport δ) (request : ExtractionRequest) : DeviceWork δ Bundle := do
  let workdir ← onWorld (Files.makeTemporary "mpstubs-create-")
  stagedIn workdir transport request

/-- Whether a stub that is staged has the given name. -/
def Named (name : String) (stage : DeviceWork δ Bundle) (state : Site × δ) : Prop :=
  ∀ bundle, (stage state).1 = .ok bundle → bundle.name = name

/-- Whether work with a device is on the way through the change of a stub, and spares a place. -/
def Passing (base : Path) (kept dirs : List String → Prop) (w : World) (state : Site × δ) : Prop :=
  Underway base (Spared kept dirs w) state.1

/-- What spares a place is a step that does and what follows it; a stub is staged after the same
step. -/
theorem spared_step {x : DeviceWork δ β} {f : β → DeviceWork δ α}
    {stage : β → DeviceWork δ Bundle} {state : Site × δ} (hx : Keeps (Passing base kept dirs w) x)
    (hstate : Passing base kept dirs w state) (hnamed : Named name (x >>= stage) state)
    (hf : ∀ b state', Passing base kept dirs w state' → Named name (stage b) state' →
      Spared kept dirs w (f b state').2.1.world) :
    Spared kept dirs w ((x >>= f) state).2.1.world := by
  have hstep := hx state hstate
  rw [bind_apply]
  rw [Named, bind_apply] at hnamed
  generalize x state = step at hstep hnamed
  obtain ⟨result, state'⟩ := step
  cases result with
  | error failure => exact hstep.world
  | ok b => exact hf b state' hstep hnamed

theorem passing_onWorld {action : Action Failure β} (h : Keeps (Spared kept dirs w) action) :
    Keeps (Passing base kept dirs w) (onWorld action : DeviceWork δ β) :=
  fun state hstate => keeps_onWorld h state.1 hstate

theorem passing_onLink {action : LinkAction δ β}
    (h : Keeps (fun link : Link δ => Spared kept dirs w link.world) action) :
    Keeps (Passing base kept dirs w) (onLink action) :=
  fun state hstate => ⟨hstate.home, h { world := state.1.world, device := state.2 } hstate.world⟩

theorem passing_lift {x : DeviceWork δ β} (h : Keeps (Passing base kept dirs w) x) :
    Keeps (Passing base kept dirs w) (ExceptT.lift x.run : DeviceWork δ (Except Failure β)) := h

variable (htemporary : ∀ place, kept place → Unhandled temporaryStems w place)
include htemporary

theorem spared_runIn (hstore : store.Stepwise)
    (htransport : transport.Sustains (Spared kept dirs w)
      (Workspace (Outside kept) (Outside kept) (Aloof kept dirs) w.cwd))
    (h : Aside base manifest kept dirs w name) (request : ExtractionRequest) {workdir : Path}
    (hworkdir : Workspace (Outside kept) (Outside kept) (Aloof kept dirs) w.cwd workdir)
    {state : Site × δ} (hstate : Passing base kept dirs w state)
    (hnamed : Named name (stagedIn workdir transport request) state) :
    Spared kept dirs w (runIn workdir transport store manifest request state).2.1.world := by
  refine spared_step (passing_onWorld (keeps_stageScript (enduring_spared kept dirs w) request
    hworkdir)) hstate hnamed fun script state₁ h₁ hnamed₁ => ?_
  refine spared_step (passing_lift (passing_onLink (Session.keeps_start htransport request.port)))
    h₁ hnamed₁ fun started state₂ h₂ hnamed₂ => ?_
  cases started with
  | error failure =>
    dsimp only
    split <;> exact h₂.world
  | ok session =>
    have hgenerate : SessionKeeps (Spared kept dirs w) (generate transport script workdir) :=
      keeps_generate htransport script (workspace_join hworkdir (by decide))
    refine spared_step (passing_onLink (Session.keeps_conduct htransport hgenerate session)) h₂
      hnamed₂ fun directory state₃ h₃ hnamed₃ => ?_
    obtain ⟨site₃, device₃⟩ := state₃
    rw [Named, onWorld_apply] at hnamed₃
    rw [bind_pure_apply, onSite_apply]
    exact spared_installGenerated htemporary hstore request.port directory (h₃.home.symm ▸ h)
      hnamed₃ h₃.world

theorem spared_run (hstore : store.Stepwise)
    (htransport : transport.Sustains (Spared kept dirs w)
      (Workspace (Outside kept) (Outside kept) (Aloof kept dirs) w.cwd))
    (h : Aside base manifest kept dirs w name) (request : ExtractionRequest)
    {state : Site × δ} (hstate : Passing base kept dirs w state)
    (hnamed : Named name (staged transport request) state) :
    Spared kept dirs w (run transport store manifest request state).2.1.world := by
  obtain ⟨site, device⟩ := state
  have hw := hstate.world
  have hstem : "mpstubs-create-" ∈ temporaryStems := by decide
  obtain ⟨result, w', hrun, hw', hroom⟩ :=
    (hw.cwd ▸ enduring_spared kept dirs w).makeTemporary_cases hw (Bundle.proper_of_stem hstem)
      (spacious_of_spared htemporary hstem hw)
  rw [Named, staged, bind_apply, onWorld_apply, hrun] at hnamed
  rw [run, bind_apply, onWorld_apply, hrun]
  cases result with
  | error failure => exact hw'
  | ok workdir =>
    have hworkdir := hroom workdir rfl
    rw [hw.cwd] at hworkdir
    have hstate' : Passing base kept dirs w ({ site with world := w' }, device) :=
      ⟨hstate.home, hw'⟩
    have hended := spared_runIn htemporary hstore htransport h request hworkdir hstate' hnamed
    dsimp only
    rw [andFinally]
    generalize runIn workdir transport store manifest request _ = ended at hended
    obtain ⟨result, site', device'⟩ := ended
    exact (enduring_spared kept dirs w).keeps_removeTree hworkdir.room.loose _ hended

end Extraction

namespace Request

variable {request : Request}

/-! ## Requests -/

/-- Whether a request is about the stub of a name: it is the one that is staged or removed. -/
def Concerns (request : Request) (site : Site) (name : String) : Prop :=
  match request.task with
  | .add catalog identifier _ => ∀ bundle,
    (Bundle.ofIdentifier catalog identifier site.world).1 = .ok bundle → bundle.name = name
  | .register bundle _ => bundle.name = name
  | .extract transport device extraction =>
    Extraction.Named name (Extraction.staged transport extraction) (site, device)
  | .remove removed => removed = name

/-- Whether a transport that a request uses spares kept trees, copying into other places only. -/
def Gentle (request : Request) (kept dirs : List String → Prop) (w : World) : Prop :=
  match request.task with
  | .extract transport _ _ => transport.Sustains (Spared kept dirs w)
    (Workspace (Outside kept) (Outside kept) (Aloof kept dirs) w.cwd)
  | _ => True

theorem spared_perform (hstore : request.store.Stepwise) {name : String}
    (hname : request.Concerns site name)
    (h : Aside site.registry.home request.manifest kept dirs w name)
    (htemporary : ∀ place, kept place → Unhandled temporaryStems w place)
    (hgentle : request.Gentle kept dirs w) (hw : Spared kept dirs w site.world) :
    Spared kept dirs w (request.perform site).2.world := by
  rw [Concerns] at hname
  rw [Gentle] at hgentle
  rw [perform]
  cases htask : request.task with
  | add catalog identifier force =>
    rw [htask] at hname
    dsimp only at hname ⊢
    rw [bind_pure_apply]
    exact Installation.spared_add htemporary hstore catalog identifier force h hname hw
  | register bundle force =>
    rw [htask] at hname
    dsimp only at hname ⊢
    subst hname
    rw [bind_pure_apply]
    exact Installation.spared_register hstore bundle force h hw
  | extract transport device extraction =>
    rw [htask] at hname hgentle
    dsimp only at hname hgentle ⊢
    rw [bind_pure_apply]
    exact Extraction.spared_run htemporary hstore hgentle h extraction ⟨rfl, hw⟩ hname
  | remove removed =>
    rw [htask] at hname
    dsimp only at hname ⊢
    subst hname
    rw [bind_pure_apply]
    exact Installation.spared_remove hstore removed h hw

/-! ## Other stubs -/

/-- Whether the directory of a stub lies apart from all that a request about another stub works with
besides the directories of that stub: the way to the home and to the list, drafts of the list,
temporary directories, and what the transport does. -/
structure Apart (request : Request) (site : Site) (place : List String) : Prop where
  settled : Settled site.registry.home site.world
  list : ∀ m ∈ request.manifest, Replaceable (· = place) site.world m.path
  temporary : Unhandled temporaryStems site.world place
  gentle : request.Gentle (· = place) (site.registry.home.TurnsAt site.world.cwd) site.world

/-- The directory of a stub is aside from the change of another one. -/
theorem aside_of_settled {home : Path} (hsettled : Settled home w) {name entry : String}
    (hentry : entry ∉
      [directoryName name, incomingName (directoryName name), previousName (directoryName name)])
    (hlist : ∀ m ∈ manifest,
      Replaceable (· = entryPlace (home.place w.cwd) entry) w m.path) :
    Aside home manifest (· = entryPlace (home.place w.cwd) entry) (home.TurnsAt w.cwd) w name := by
  simp only [List.mem_cons, List.not_mem_nil, or_false, not_or] at hentry
  obtain ⟨hpart, hincoming, hprevious⟩ := hentry
  have haloof : ∀ other, entry ≠ other → Aloof (· = entryPlace (home.place w.cwd) entry)
      (home.TurnsAt w.cwd) (entryPlace (home.place w.cwd) other) := by
    intro other hne
    refine ⟨?_, fun turn hturn => (hsettled.turns turn hturn).2 other⟩
    rintro _ rfl
    exact entries_apart hne
  refine ⟨⟨?_, ?_, ?_, ?_⟩, haloof _ hprevious, hlist⟩
  · rintro turn hturn _ rfl
    exact (hsettled.turns turn hturn).2 entry
  · rintro _ rfl
    exact not_entryPlace_le_indexPlace entry
  · rintro other (rfl | rfl)
    · exact haloof _ hpart
    · exact haloof _ hincoming
  · rintro _ rfl
    exact undrafted_entry home entry

/-- Requests leave the directories of other stubs as they are, unless these are the ones that the
stub of the request comes in by or is moved aside to. -/
theorem spares_others (site : Site) (request : Request) (name other : String) (directory : Path)
    (hstore : request.store = Registry.store ∨
      (∃ failure stage, request.store = failingStore failure stage) ∨ request.store.Stepwise)
    (hname : request.Concerns site name)
    (hother : directoryName other ∉
      [directoryName name, incomingName (directoryName name), previousName (directoryName name)])
    (hdirectory : site.registry.directory other = .ok directory)
    (hapart : request.Apart site (directory.place site.world.cwd)) :
    (request.perform site).2.world.find? directory = site.world.find? directory := by
  have hstepwise : request.store.Stepwise := by
    obtain heq | ⟨failure, stage, heq⟩ | h := hstore
    · exact heq ▸ store_stepwise
    · exact heq ▸ failingStore_stepwise failure stage
    · exact h
  obtain ⟨hentry, rfl⟩ := directory_eq_ok hdirectory
  obtain ⟨hsettled, hlist, htemporary, hgentle⟩ := hapart
  have hunder := under_stub site.registry.home hentry
  rw [place_stubPath _ hentry] at hlist htemporary hgentle
  have hspared := spared_perform hstepwise hname
    (aside_of_settled hsettled hother hlist)
    (fun place hplace => hplace ▸ htemporary) hgentle
    (.refl _ hsettled.plain fun turn hturn => (hsettled.turns turn hturn).1)
  by_cases hvalid : Valid (stubPath site.registry.home (directoryName other))
  · rw [find?_of_under hsettled.plain hunder (fun turn hturn => (hsettled.turns turn hturn).1)
        hvalid,
      find?_of_under hspared.plain hunder (fun turn hturn => ?_) hvalid, hspared.cwd,
      place_stubPath _ hentry]
    · exact hspared.same _ rfl
    · rw [hspared.cwd] at hturn
      exact hspared.dir turn hturn
  · rw [find?_of_not_valid hsettled.plain hvalid, find?_of_not_valid hspared.plain hvalid]

/-- A home with the stub `x` and the files of the given stubs. -/
def sharedSite (others : List String) : Site where
  world := others.foldl (fun w other => w.put ["home", "stubs", other]
    (.directory [("pin.pyi", .file .empty false)])) (smallWorld [oldRecord "x"])
  registry := { home := ⟨"home"⟩, records := oldRecord "x" :: others.map oldRecord }

theorem sharedSite_plain {others : List String} (hothers : ∀ other ∈ others, IsName other) :
    (sharedSite others).world.root.Plain := by
  refine foldl_keeps (I := fun w : World => w.root.Plain) (fun other hother w hw => ?_)
    (smallWorld_plain _)
  refine hw.alter fun _ heq => Option.some.inj heq ▸ ⟨?_, ?_⟩
  · rintro _ ⟨⟩
    exact hothers other hother
  · simp [plain_directory_iff, plain_file, IsName]

theorem spares_others_of_extraction :
    (extracting.perform (sharedSite ["y"])).1 = .ok (.registered deviceRecord) ∧
      (sharedSite ["y"]).world.exists? ⟨"home/stubs/y/pin.pyi"⟩ ∧
      (extracting.perform (sharedSite ["y"])).2.world.find? ⟨"home/stubs/y"⟩
        = (sharedSite ["y"]).world.find? ⟨"home/stubs/y"⟩ := by
  have hstaged : (Extraction.staged smallTransport { port := "p", script := ⟨"list.py"⟩ }
      (sharedSite ["y"], ())).1.map (·.name) = .ok "x" := by
    decide +kernel
  have hnamed : extracting.Concerns (sharedSite ["y"]) "x" := by
    intro bundle hbundle
    rw [hbundle] at hstaged
    exact Except.ok.inj hstaged
  have hplain : (sharedSite ["y"]).world.root.Plain :=
    sharedSite_plain (by decide +kernel : ∀ other ∈ ["y"], IsName other)
  have hthere : (sharedSite ["y"]).world.root.get? (Path.place [] ⟨"home/stubs/y"⟩) ≠ none := by
    decide +kernel
  refine ⟨by decide +kernel, by decide +kernel, spares_others (sharedSite ["y"]) extracting "x" "y"
    ⟨"home/stubs/y"⟩ (.inl rfl) hnamed (by decide +kernel) (by decide +kernel)
    ⟨?_, ?_, ?_, smallTransport_sustains (enduring_spared _ _ _)⟩⟩
  · exact .of_straight hplain (by decide +kernel) ⟨_, rfl⟩
  · rintro _ ⟨⟩
    exact .of_straight (by decide +kernel) (by decide +kernel) hthere
  · exact .of_straight (by decide +kernel) (by decide +kernel) hthere

/-- Whether a request takes away the files of an installed stub. -/
def Loses (request : Request) (site : Site) (other : String) : Prop :=
  Bundle.isValidName other ∧ (site.registry.find? other).isSome ∧
    site.registry.directory other = .ok ⟨"home/stubs/" ++ other⟩ ∧
    site.world.exists? ⟨"home/stubs/" ++ other ++ "/pin.pyi"⟩ ∧
    ¬ (request.perform site).2.world.exists? ⟨"home/stubs/" ++ other⟩

instance (request : Request) (site : Site) (other : String) :
    Decidable (request.Loses site other) :=
  inferInstanceAs (Decidable (_ ∧ _))

/-- Stubs that go by the names of what a stub comes in by and is moved aside to lose their files,
the latter also when the request fails. -/
theorem lost_of_helper :
    (perform { task := .register Installation.smallBundle true }
        (sharedSite [".incoming-x"])).1.toOption.isSome ∧
      Loses { task := .register Installation.smallBundle true }
        (sharedSite [".incoming-x"]) ".incoming-x" ∧
      (perform { task := .remove "x" } (sharedSite [".previous-x"])).1 = .ok (.removed "x") ∧
      Loses { task := .remove "x" } (sharedSite [".previous-x"]) ".previous-x" ∧
      (perform { task := .remove "x", store := failingStore (.fileSystem "early") .nothing }
        (sharedSite [".previous-x"])).1 = .error (.fileSystem "early") ∧
      Loses { task := .remove "x", store := failingStore (.fileSystem "early") .nothing }
        (sharedSite [".previous-x"]) ".previous-x" := by
  decide +kernel

end Request

end StubManager
