import StubManager.Proofs.Device.Session
import StubManager.Proofs.Installation.Ending

/-!
# How extractions end

Until the stubs of a device are registered, an extraction works in a temporary directory that lies
beside the index, so it ends as a registration does: `ends_run`.
-/

namespace StubManager

open Node Running World Registry

/-- What an extraction did to the records: nothing, if the device could not be reached. -/
def Extracted.effect : Extracted → Effect
  | .installed added => added.effect
  | .unreachable _ => .nothing

namespace Extraction

open Installation

variable {δ α β : Type} {base : Path} {w : World} {site : Site}

/-- Work with a device, as it is seen from the site. -/
def withDevice (work : DeviceWork δ α) (device : δ) : Work α := fun site =>
  ((work (site, device)).1, (work (site, device)).2.1)

theorem onSite_apply (work : Work β) (site : Site) (device : δ) :
    onSite work (site, device) = ((work site).1, ((work site).2, device)) := rfl

theorem onWorld_apply (action : Action Failure β) (site : Site) (device : δ) :
    onWorld action (site, device)
      = ((action site.world).1, ({ site with world := (action site.world).2 }, device)) := rfl

theorem onLink_apply (action : LinkAction δ β) (site : Site) (device : δ) :
    onLink action (site, device)
      = ((action { world := site.world, device }).1,
        ({ site with world := (action { world := site.world, device }).2.world },
          (action { world := site.world, device }).2.device)) := rfl

theorem lift_apply (work : DeviceWork δ β) (state : Site × δ) :
    (ExceptT.lift work.run : DeviceWork δ (Except Failure β)) state
      = (.ok (work state).1, (work state).2) := rfl

/-! ## Steps that leave the records alone -/

/-- Whether a step leaves the records in hand alone and keeps an index. -/
def Quiet (base : Path) (w : World) (x : DeviceWork δ α) : Prop :=
  ∀ w' registry device, Kept base w w' → ∃ result w'' device',
    x ({ world := w', registry }, device) = (result, ({ world := w'', registry }, device')) ∧
      Kept base w w''

theorem quiet_onWorld {action : Action Failure α} (h : Keeps (Kept base w) action) :
    Quiet base w (onWorld action : DeviceWork δ α) :=
  fun w' _ device hw => ⟨_, _, device, rfl, h w' hw⟩

theorem quiet_onLink {action : LinkAction δ α}
    (h : Keeps (fun link : Link δ => Kept base w link.world) action) :
    Quiet base w (onLink action) :=
  fun w' _ device hw => ⟨_, _, _, rfl, h { world := w', device } hw⟩

theorem Quiet.lift {x : DeviceWork δ α} (h : Quiet base w x) :
    Quiet base w (ExceptT.lift x.run : DeviceWork δ (Except Failure α)) := by
  intro w' registry device hw
  obtain ⟨result, w'', device', hrun, hkept⟩ := h w' registry device hw
  refine ⟨.ok result, w'', device', ?_, hkept⟩
  change (Except.ok (x _).1, (x _).2) = _
  rw [hrun]

/-- How work with a device ends that begins with a step that leaves the records alone. -/
theorem ends_bind (site : Site) {x : DeviceWork δ β} {f : β → DeviceWork δ α} {effect : α → Effect}
    (hx : Quiet site.registry.home site.world x) (device : δ) (hplain : site.world.root.Plain)
    (hf : ∀ b w' device', Kept site.registry.home site.world w' →
      Ends effect { site with world := w' } (withDevice (f b) device' { site with world := w' })) :
    Ends effect site (withDevice (x >>= f) device site) := by
  obtain ⟨result, w', device', hrun, hkept⟩ := hx site.world site.registry device (.refl _ hplain)
  rw [withDevice, bind_apply, hrun]
  cases result with
  | error failure => exact .of_error failure hkept
  | ok b => exact .of_kept hkept (hf b w' device' hkept)

/-! ## Scripts and sessions -/

section

variable {I : World → Prop} {idle free loose : List String → Prop} {cwd : List String}

theorem keeps_replace_join (h : Enduring I cwd idle free loose) {workdir : Path}
    (hworkdir : Workspace idle free loose cwd workdir) {name : String} (hname : IsName name)
    (data : ByteArray) : Keeps I (Files.replace (workdir.join name) data) := by
  obtain ⟨hidle, hfree⟩ := hworkdir.join hname
  have hends := Path.endsWith_join workdir hname
  have hplace := Files.place_holder hname hends cwd
  rw [Path.place_join workdir hname] at hplace
  obtain ⟨hholder, -⟩ := List.append_inj' hplace rfl
  refine h.keeps_replace
    (fun place hpasses => hidle place (Files.passes_holder hname hends hpasses))
    (hfree _ (List.prefix_refl _)).2 (fun _ draft _ _ _ => ?_) data
  rw [← hholder]
  exact (hworkdir.room.below _ (List.prefix_append _ _)).2

/-- Staging a script changes no more than the replacement of a file in the working directory. -/
theorem keeps_stageScript_of (request : ExtractionRequest) {workdir : Path}
    (hreplace : ∀ name, IsName name → ∀ data, Keeps I (Files.replace (workdir.join name) data)) :
    Keeps I (stageScript request workdir) := by
  rw [stageScript]
  cases ChangeSet.ofRequest? request.modules with
  | none =>
    refine (keeps_ask _).bind fun _ isFile _ _ => ?_
    split
    · exact keeps_pure _
    · exact keeps_throw _
  | some change =>
    have hname : IsName (request.script.fileName?.getD defaultScriptName) := by
      cases hscript : request.script.fileName? with
      | none => decide
      | some name => exact Path.isName_of_fileName? hscript
    have hload : Keeps I (Artifact.load request.script modulesAnchor) := by
      intro w' hw
      obtain ⟨failure, hrun⟩ | ⟨artifact, hrun, -⟩ :=
        Artifact.load_cases request.script modulesAnchor w' <;> rwa [hrun]
    have hsave : ∀ edited : Artifact,
        Keeps I (edited.save (workdir.join (request.script.fileName?.getD defaultScriptName))) :=
      fun edited => (hreplace _ hname edited.text.toUTF8).adapt _
    refine hload.bind fun _ artifact _ _ => (keeps_ofExcept _).bind fun _ edited _ _ => ?_
    exact (hsave edited).bind fun _ _ _ _ => keeps_pure _

/-- The script is staged inside of the directory that there is to work in. -/
theorem keeps_stageScript (h : Enduring I cwd idle free loose) (request : ExtractionRequest)
    {workdir : Path} (hworkdir : Workspace idle free loose cwd workdir) :
    Keeps I (stageScript request workdir) :=
  keeps_stageScript_of request fun _ hname => keeps_replace_join h hworkdir hname

theorem keeps_generate {transport : Transport δ} {suitable : Path → Prop}
    (htransport : transport.Sustains I suitable) (script : Path) {workdir : Path}
    (hworkdir : suitable (workdir.join "device")) :
    SessionKeeps I (generate transport script workdir) := by
  refine .bind (Session.keeps_runScript htransport script) fun _ => ?_
  refine .bind (Session.keeps_copyFrom htransport _ hworkdir) fun copy => ?_
  exact .bind (Session.keeps_close htransport) fun _ _ _ hlink => hlink

end

variable {transport : Transport δ} {store : Store} {manifest : Option Manifest}

/-! ## Extractions -/

/-- The stubs are registered when the session is over. -/
theorem ends_registered (site : Site) (hstore : store.Saving)
    (hsettled : Settled site.registry.home site.world)
    (hlist : ListedApart manifest site.registry.home site.world.cwd) (port : String)
    (directory : Path) (device : δ) :
    Ends Extracted.effect site (withDevice (do
      return .installed (← onSite (installGenerated store manifest port directory))) device
        site) := by
  have hends := ends_installGenerated hstore hsettled hlist port directory
  rw [withDevice, bind_apply, onSite]
  generalize installGenerated store manifest port directory site = ended at hends
  have hmap : Ends Extracted.effect site (ended.1.map Extracted.installed, ended.2) :=
    hends.map fun _ => rfl
  obtain ⟨_ | _, site'⟩ := ended <;> exact hmap

theorem ends_runIn (site : Site) (htransport : transport.Keeping site.registry.home)
    (hstore : store.Saving) (hsettled : Settled site.registry.home site.world)
    (hlist : ListedApart manifest site.registry.home site.world.cwd)
    (request : ExtractionRequest) {workdir : Path}
    (hworkdir : Beside site.registry.home site.world.cwd (workdir.place site.world.cwd))
    (device : δ) :
    Ends Extracted.effect site
      (withDevice (runIn workdir transport store manifest request) device site) := by
  have hworkspace : Workspace _ _ _ site.world.cwd workdir := ⟨fun _ _ => trivial, hworkdir.roomy⟩
  refine ends_bind site (quiet_onWorld (keeps_stageScript (enduring_kept _ _) request hworkspace))
    device hsettled.plain fun script w₁ device₁ h₁ => ?_
  have hsettled₁ := hsettled.remains h₁.toRemains
  refine ends_bind { site with world := w₁ }
    (quiet_onLink (Session.keeps_start (htransport.sustains _) request.port)).lift device₁
    hsettled₁.plain
    fun started w₂ device₂ h₂ => ?_
  have hsettled₂ := hsettled₁.remains h₂.toRemains
  cases started with
  | error failure =>
    dsimp only
    split
    · exact .unchanged _ _ rfl (.refl _ hsettled₂.plain)
    · exact .of_error failure (.refl _ hsettled₂.plain)
  | ok session =>
    have hgenerate : SessionKeeps (Kept site.registry.home w₂)
        (generate transport script workdir) := by
      refine keeps_generate (htransport.sustains w₂) script ?_
      rw [h₂.cwd, h₁.cwd, Path.place_join workdir (by decide)]
      exact hworkdir.mono (List.prefix_append _ _)
    refine ends_bind { site with world := w₂ }
      (quiet_onLink (Session.keeps_conduct (htransport.sustains w₂) hgenerate session)) device₂
      hsettled₂.plain fun directory w₃ device₃ h₃ => ?_
    have hlist' : ListedApart manifest site.registry.home w₃.cwd := by
      rw [h₃.cwd, h₂.cwd, h₁.cwd]
      exact hlist
    exact ends_registered { site with world := w₃ } hstore (hsettled₂.remains h₃.toRemains) hlist'
      request.port directory device₃

/-- An extraction ends with the index as it was, or with the records in hand saved. -/
theorem ends_run (htransport : transport.Keeping site.registry.home) (hstore : store.Saving)
    (hsettled : Settled site.registry.home site.world)
    (hlist : ListedApart manifest site.registry.home site.world.cwd)
    (request : ExtractionRequest) (device : δ) :
    Ends Extracted.effect site
      (withDevice (run transport store manifest request) device site) := by
  have hstem : "mpstubs-create-" ∈ temporaryStems := by decide
  obtain ⟨result, w', hrun, hkept, hbeside⟩ := Bundle.makeTemporary_cases hsettled hstem
  rw [withDevice, run, bind_apply, onWorld, onSite, Work.onWorld, hrun]
  cases result with
  | error failure => exact .of_error failure hkept
  | ok workdir =>
    have hworkdir := hbeside workdir rfl
    have hsettled' := hsettled.remains hkept.toRemains
    have hends : Ends Extracted.effect { site with world := w' }
        (withDevice (runIn workdir transport store manifest request) device
          { site with world := w' }) :=
      ends_runIn { site with world := w' } htransport hstore hsettled' (hkept.cwd ▸ hlist) request
        (hkept.cwd ▸ hworkdir) device
    refine .of_kept hkept (hends.then_kept hsettled' ?_)
    refine (enduring_kept _ _).keeps_removeTree ?_ _ (.refl _ hends.remains.plain)
    rw [hends.remains.cwd, hkept.cwd]
    exact hworkdir

end Extraction

end StubManager
