import StubManager.Proofs.Device.Board
import StubManager.Proofs.Installation.Conversing
import StubManager.Proofs.Installation.Quarters

/-!
# Extractions do not depend on what the script is called

A device that goes by what it is sent gets the same whatever the script is called, and the extraction
comes to the same: main statements `Extraction.run_apply` and `Extraction.run_renamed`. The name
`device` is the exception: a script that is staged under it takes the place that the stubs are to be
copied to.
-/

namespace StubManager

open Node Running World Registry Files
open Installation (manifestAt)
open Request (deviceRecord newYear)

variable {δ : Type}

namespace Extraction

/-- What a board does with a script is what it does with its contents. -/
theorem fetch_of_read (board : Board δ) {script : Path} {contents : ByteArray} {w : World}
    (hread : Files.read script w = (.ok contents, w)) (workdir : Path) (store : Store)
    (manifest : Option Manifest) (port : String) (site : Site) (device : δ) :
    fetch workdir board.transport store manifest port script ({ site with world := w }, device)
      = fetch workdir (board.sending (some contents)) store manifest port script
        ({ site with world := w }, device) := by
  have hconnect : ∀ link : Link δ, board.transport.connect port link
      = ((board.connect port link.device).1,
        { link with device := (board.connect port link.device).2 }) := fun _ => rfl
  have hrun : ∀ device : δ, board.transport.runScript port script { world := w, device }
      = (board.sending (some contents)).runScript port script { world := w, device } := by
    intro device
    dsimp only [Board.transport, Board.sending]
    rw [hread]
    rfl
  rw [fetch_apply, fetch_apply, show (board.sending (some contents)).connect
    = board.transport.connect from rfl, hconnect]
  dsimp only
  rcases board.connect port device with ⟨failure | _, device'⟩
  · rfl
  dsimp only
  rw [conduct_generate, conduct_generate, hrun]
  rfl

/-- What is sent does not depend on where the script lies. -/
theorem fetch_sending (board : Board δ) (contents : Option ByteArray) (workdir : Path)
    (store : Store) (manifest : Option Manifest) (port : String) (script script' : Path) :
    fetch workdir (board.sending contents) store manifest port script
      = fetch workdir (board.sending contents) store manifest port script' := rfl

/-- What is fetched and installed is the same whether or not a file is there that lies beside the
directory to copy into. -/
theorem commutes_fetch {home : Path} {manifest : Option Manifest} {dirs : List String → Prop}
    {w₀ : World} {lodge : List String} {entry : String}
    (hsecluded : Secluded home manifest dirs w₀ lodge)
    (hfile : w₀.root.FileAt (lodge ++ [entry])) {workdir : Path}
    (hclear : Clear (lodge ++ [entry]) w₀.cwd (workdir.join "device"))
    (haloof : Aloof (· = lodge ++ [entry]) dirs ((workdir.join "device").place w₀.cwd))
    (board : Board δ) (contents : Option ByteArray) (port : String) (script : Path) :
    Commutes (fun state : Site × δ => Underway home (Spared (· = lodge ++ [entry]) dirs w₀) state.1)
      (fun state => ({ state.1 with world := state.1.world.erase (lodge ++ [entry]) }, state.2))
      (fetch workdir (board.sending contents) Registry.store manifest port script) := by
  rintro ⟨site, device⟩ hsite
  have hconnect : Board.Overlooks (lodge ++ [entry]) dirs w₀
      ((board.sending contents).connect port) := Board.overlooks_step _
  obtain ⟨hlink, hsame⟩ := hconnect { world := site.world, device } hsite.world
  dsimp only at hsame ⊢
  rw [fetch_apply, fetch_apply, hsame]
  generalize (board.sending contents).connect port { world := site.world, device } = step at hlink
  obtain ⟨failure | _, link⟩ := step
  · exact ⟨⟨hsite.home, hlink⟩, rfl⟩
  have hconduct := board.overlooks_conduct contents hfile hclear haloof port script
  obtain ⟨hlink', hsame'⟩ := hconduct link hlink
  dsimp only at hsame' ⊢
  rw [hsame']
  cases hrun : Session.conduct (board.sending contents)
      { port, held := true, state := .connected }
      (generate (board.sending contents) script workdir) link with
  | mk result link' =>
    rw [hrun] at hlink'
    cases result with
    | error failure => exact ⟨⟨hsite.home, hlink'⟩, rfl⟩
    | ok directory =>
      have hinstall := Installation.overlooks_installGenerated hsecluded hfile port
        (Board.clear_of_conduct hclear hrun)
      obtain ⟨hended, hsame''⟩ :=
        hinstall { site with world := link'.world } ⟨hsite.home, hlink'⟩
      dsimp only at hsame'' ⊢
      rw [hsame'']
      exact ⟨hended, rfl⟩

/-- A conversation keeps what each of its calls keeps. -/
theorem keeps_conduct_generate {P : Link δ → Prop} {transport : Transport δ} {port : String}
    {script workdir : Path} (hrun : Keeps P (transport.runScript port script))
    (hcopy : Keeps P (transport.copyFrom port deviceDirectory (workdir.join "device")))
    (hleave : Keeps P (transport.disconnect port)) :
    Keeps P (Session.conduct transport { port, held := true, state := .connected }
      (generate transport script workdir)) := by
  intro link hlink
  have hlink₁ := hrun link hlink
  rw [conduct_generate]
  generalize transport.runScript port script link = step at hlink₁
  obtain ⟨failure | _, link₁⟩ := step
  · exact hleave link₁ hlink₁
  have hlink₂ := hcopy link₁ hlink₁
  dsimp only
  generalize transport.copyFrom port deviceDirectory (workdir.join "device") link₁ = step at hlink₂
  obtain ⟨failure | copy, link₂⟩ := step <;> exact hleave link₂ hlink₂

/-- Nothing but the contents of the script is sent. -/
theorem fetch_heard (board : Board δ) (contents : Option ByteArray) (workdir : Path)
    (store : Store) (manifest : Option Manifest) (port : String) (script : Path) (site : Site)
    (device : δ) :
    ∀ text ∈ (fetch workdir (board.heard.sending contents) store manifest port script
      (site, (device, []))).2.2.2, text = contents := by
  let Faithful (link : Link (δ × List (Option ByteArray))) : Prop :=
    ∀ text ∈ link.device.2, text = contents
  have hconnect : Keeps Faithful ((board.heard.sending contents).connect port) :=
    fun _ hlink => hlink
  have hrun : Keeps Faithful ((board.heard.sending contents).runScript port script) :=
    fun link hlink => List.forall_mem_append.2 ⟨hlink, by simp⟩
  have hcopy : Keeps Faithful ((board.heard.sending contents).copyFrom port deviceDirectory
      (workdir.join "device")) := fun link hlink text htext =>
    hlink text (board.heard_copyFrom port deviceDirectory _ link ▸ htext)
  have hleave : Keeps Faithful ((board.heard.sending contents).disconnect port) :=
    fun _ hlink => hlink
  have hlink := hconnect { world := site.world, device := (device, []) } (by simp [Faithful])
  rw [fetch_apply]
  generalize (board.heard.sending contents).connect port
    { world := site.world, device := (device, []) } = step at hlink
  obtain ⟨failure | _, link⟩ := step
  · exact hlink
  have hlink' := keeps_conduct_generate hrun hcopy hleave link hlink
  dsimp only
  generalize Session.conduct (board.heard.sending contents) _ _ link = step at hlink'
  obtain ⟨failure | directory, link'⟩ := step <;> exact hlink'

/-- Nothing is installed if a file is where the stubs are to be copied to. -/
theorem fetch_of_file (board : Board δ) (contents : Option ByteArray) {workdir : Path} {w : World}
    (hplain : w.root.Plain) {data : ByteArray} {mode : Bool}
    (hfind : w.find? (workdir.join "device") = some (.file data mode)) (store : Store)
    (manifest : Option Manifest) (port : String) (script : Path) (site : Site) (device : δ)
    (added : Added) :
    (fetch workdir (board.sending contents) store manifest port script
      ({ site with world := w }, device)).1 ≠ .ok (.installed added) := by
  have hdevice : IsName "device" := by decide
  have hmake := makeDirectories_of_isFile hplain hdevice (Path.endsWith_join workdir hdevice) hfind
  have hcopy : ∀ device,
      (board.sending contents).copyFrom port deviceDirectory (workdir.join "device")
        { world := w, device }
      = (.error (.fileSystem FileFault.alreadyExists.message), { world := w, device }) := by
    intro device
    change (LinkAction.onWorld (Files.stopping _) >>= _ : LinkAction δ Path) _ = _
    rw [bind_apply, LinkAction.onWorld, Files.stopping, adapt_apply, hmake]
    rfl
  have hconnect : (board.sending contents).connect port { world := w, device }
      = ((board.connect port device).1, { world := w, device := (board.connect port device).2 }) :=
    rfl
  have hrun : ∀ device, (board.sending contents).runScript port script { world := w, device }
      = ((board.runScript port contents device).1,
        { world := w, device := (board.runScript port contents device).2 }) := fun _ => rfl
  rw [fetch_apply, hconnect]
  rcases board.connect port device with ⟨failure | _, device'⟩
  · dsimp only
    split <;> rintro ⟨⟩
  dsimp only
  rw [conduct_generate, hrun]
  rcases board.runScript port contents device' with ⟨failure | _, device''⟩
  · rintro ⟨⟩
  dsimp only
  rw [hcopy]
  rintro ⟨⟩

/-! ## Extractions -/

/-- Whether a script would be staged where the stubs are to be copied to. -/
def Clashing (request : ExtractionRequest) : Prop :=
  request.modules.isSome ∧ request.script.fileName? = some "device"

instance (request : ExtractionRequest) : Decidable (Clashing request) :=
  inferInstanceAs (Decidable (_ ∧ _))

variable {manifest : Option Manifest} {request : ExtractionRequest} {site : Site} {name : String}
variable {data : ByteArray} {mode : Bool}

theorem andFinally_apply {α : Type} (body : DeviceWork δ α) (cleanup : World → World)
    (state : Site × δ) : andFinally body cleanup state
      = ((body state).1, ({ (body state).2.1 with world := cleanup (body state).2.1.world },
        (body state).2.2)) := rfl

section

variable (h : Quartered site.world name) (hspaced : Spaced site.registry.home manifest site.world)
include h hspaced

/-- What was staged for the device and is not in its way leaves no trace. -/
theorem fetch_staged {entry : String} (hentry : IsName entry) (hne : entry ≠ "device")
    (board : Board δ) (contents : ByteArray) (port : String) (script : Path) (device : δ) :
    let conversation := andFinally (fetch (site.world.tempDir.join name)
      (board.sending (some contents)) Registry.store manifest port script)
      (quietly (removeTree (site.world.tempDir.join name)))
    conversation ({ site with world := site.world.staged name entry contents }, device)
      = conversation ({ site with world := site.world.housed name }, device) := by
  intro conversation
  obtain ⟨-, hnode, herase, -⟩ := h.staged_spec hentry contents
  obtain ⟨hclear, haloof⟩ := h.clear_beside (by decide : IsName "device") hne
  obtain ⟨hended, hsame⟩ := commutes_fetch (h.secluded hspaced entry contents) ⟨_, _, hnode⟩ hclear
    haloof board (some contents) port script
    ({ site with world := site.world.staged name entry contents }, device)
    ⟨rfl, h.spared_staged hentry contents⟩
  have hgone := h.removeTree_erase hentry contents hended.world
  dsimp only at hsame
  rw [herase] at hsame
  dsimp only [conversation]
  rw [andFinally_apply, andFinally_apply, hsame]
  dsimp only
  rw [hgone]

variable (hfind : site.world.find? request.script = some (.file data mode))
include hfind

/-- An extraction in a new working directory fails where its script cannot be edited, or is what comes
of the edited contents of the script: with modules these are staged under the name of the script. -/
theorem runIn_of_quartered (board : Board δ) (device : δ) (script : Path) :
    (∃ failure, edited request.modules request.script.text data = .error failure ∧
      runIn (site.world.tempDir.join name) board.transport Registry.store manifest request
          ({ site with world := site.world.housed name }, device)
        = (.error failure, ({ site with world := site.world.housed name }, device))) ∨
    ∃ contents w, edited request.modules request.script.text data = .ok contents ∧
      (request.modules = none ∧ w = site.world.housed name ∨ request.modules.isSome ∧ ∃ entry,
        Usable entry ∧ request.script.fileName? = some entry ∧
          w = site.world.staged name entry contents) ∧
      runIn (site.world.tempDir.join name) board.transport Registry.store manifest request
          ({ site with world := site.world.housed name }, device)
        = fetch (site.world.tempDir.join name) (board.sending (some contents)) Registry.store
          manifest request.port script ({ site with world := w }, device) := by
  have hfind' := h.find?_file hfind
  rw [runIn_apply]
  dsimp only
  cases hmodules : request.modules with
  | none =>
    refine .inr ⟨data, _, rfl, .inl ⟨rfl, rfl⟩, ?_⟩
    have hread : Files.read request.script (site.world.housed name)
        = (.ok data, site.world.housed name) := read_of_find? hfind'
    rw [stageScript_of_none hmodules hfind']
    dsimp only
    rw [fetch_of_read board hread, fetch_sending _ _ _ _ _ _ _ script]
  | some modules =>
    obtain ⟨entry, hentry, hends⟩ := endsWith_of_isFile h.plain hfind
    have hfileName := Path.fileName?_of_endsWith hentry hends
    have husable := usable_of_valid hentry hends ((find?_eq_some_iff h.plain).1 hfind).1
    have hdraft : Usable ".tmpXXXXXX" := ⟨by decide, by decide +kernel, by decide⟩
    have hvalid : ∀ entry' ∈ [".tmpXXXXXX", entry],
        Valid ((site.world.tempDir.join name).join entry') := by
      rw [List.forall_mem_cons, List.forall_mem_singleton]
      exact ⟨h.valid_entry hspaced hdraft, h.valid_entry hspaced husable⟩
    have hplace : (site.world.tempDir.join name).place (site.world.housed name).cwd
        = site.world.lodge name := Path.place_join site.world.tempDir h.isName site.world.cwd
    rw [stageScript_of_modules hmodules h.plain_housed hfind' h.isName
      (Path.endsWith_join _ h.isName) h.find?_workdir hfileName hvalid, hplace, hmodules]
    cases edited (some modules) request.script.text data with
    | error failure => exact .inl ⟨failure, rfl, rfl⟩
    | ok contents =>
      refine .inr ⟨contents, _, rfl, .inr ⟨rfl, entry, husable, hfileName, rfl⟩, ?_⟩
      have hread := read_of_find? (h.find?_staged hentry contents (h.valid_entry hspaced husable))
      have hput : (site.world.housed name).put (site.world.lodge name ++ [entry])
          (.file contents false) = site.world.staged name entry contents := rfl
      dsimp only
      rw [hput, fetch_of_read board hread, fetch_sending _ _ _ _ _ _ _ script]

variable (hmake : makeTemporary "mpstubs-create-" site.world
  = (.ok (site.world.tempDir.join name), site.world.housed name))
include hmake

/-- An extraction is what comes of the contents of its script in a new working directory, unless the
script is staged where the stubs are to be copied to. -/
theorem run_apply (hclash : ¬ Clashing request) (board : Board δ) (device : δ) (script : Path) :
    let cleanup := quietly (removeTree (site.world.tempDir.join name))
    run board.transport Registry.store manifest request (site, device) =
      match edited request.modules request.script.text data with
      | .error failure =>
        (.error failure, ({ site with world := cleanup (site.world.housed name) }, device))
      | .ok contents =>
        andFinally (fetch (site.world.tempDir.join name) (board.sending (some contents))
          Registry.store manifest request.port script) cleanup
          ({ site with world := site.world.housed name }, device) := by
  intro cleanup
  rw [run, bind_apply, onWorld_apply, hmake]
  dsimp only
  rw [andFinally_apply]
  obtain ⟨failure, hedited, hrun⟩ | ⟨contents, w, hedited, hw, hrun⟩ :=
    runIn_of_quartered h hspaced hfind board device script
  · rw [hrun, hedited]
  · rw [hrun, hedited]
    obtain ⟨-, rfl⟩ | ⟨hmodules, entry, hentry, hfileName, rfl⟩ := hw
    · rfl
    · have hne : entry ≠ "device" := fun heq => hclash ⟨hmodules, heq ▸ hfileName⟩
      exact fetch_staged h hspaced hentry.isName hne board contents request.port script device

/-- Nothing is installed if the script is staged where the stubs are to be copied to. -/
theorem run_of_clashing (hclash : Clashing request) (board : Board δ) (device : δ)
    (added : Added) :
    (run board.transport Registry.store manifest request (site, device)).1
      ≠ .ok (.installed added) := by
  obtain ⟨hmodules, hfileName⟩ := hclash
  rw [run, bind_apply, onWorld_apply, hmake]
  dsimp only
  rw [andFinally_apply]
  obtain ⟨failure, -, hrun⟩ | ⟨contents, w, -, hw, hrun⟩ :=
    runIn_of_quartered h hspaced hfind board device request.script
  · rw [hrun]
    rintro ⟨⟩
  · rw [hrun]
    obtain ⟨hnone, -⟩ | ⟨-, entry, hentry, hname, rfl⟩ := hw
    · rw [hnone] at hmodules
      cases hmodules
    · obtain rfl : entry = "device" := Option.some.inj (hname.symm.trans hfileName)
      obtain ⟨hplain, -⟩ := h.staged_spec hentry.isName contents
      exact fetch_of_file board _ hplain
        (h.find?_staged hentry.isName contents (h.valid_entry hspaced hentry)) _ _ _ _ site device
        added

end

/-! ## The script file -/

/-- Whether a script lies apart from what an installation changes and from the ways there. -/
structure Foreign (home : Path) (manifest : Option Manifest) (w : World) (script : Path) :
    Prop where
  way : Avoids (script.place w.cwd) w.cwd home
  stubs : ∀ place, script.Passes w.cwd place → ¬ home.place w.cwd ++ [stubsName] <+: place
  index : script.place w.cwd ≠ indexPlace (home.place w.cwd)
  list : ∀ m ∈ manifest, Avoids (script.place w.cwd) w.cwd m.path

theorem Foreign.of_straight {home script : Path} {w : World} (hhome : ".." ∉ home.names)
    (hscript : ".." ∉ script.names) (hway : ¬ script.place w.cwd <+: home.place w.cwd)
    (hstubs : ¬ home.place w.cwd ++ [stubsName] <+: script.place w.cwd)
    (hindex : script.place w.cwd ≠ indexPlace (home.place w.cwd))
    (hlist : ∀ m ∈ manifest, ".." ∉ m.path.names ∧
      ¬ script.place w.cwd <+: m.path.place w.cwd) : Foreign home manifest w script where
  way := .of_straight hhome hway
  stubs _ hpasses hle := hstubs (hle.trans (hpasses.le_of_straight hscript))
  index := hindex
  list m hm := .of_straight (hlist m hm).1 (hlist m hm).2

theorem Foreign.aside {home script : Path} {w : World} (h : Foreign home manifest w script)
    (hthere : w.root.get? (script.place w.cwd) ≠ none) (name : String) :
    Aside home manifest (· = script.place w.cwd) (script.TurnsAt w.cwd) w name := by
  have hentry : ∀ entry, Aloof (· = script.place w.cwd) (script.TurnsAt w.cwd)
      (entryPlace (home.place w.cwd) entry) := by
    intro entry
    have habove : ∀ place, script.Passes w.cwd place →
        ¬ entryPlace (home.place w.cwd) entry <+: place := by
      intro place hpasses hle
      rw [entryPlace_eq] at hle
      exact h.stubs place hpasses ((List.prefix_append _ _).trans hle)
    refine ⟨?_, fun turn hturn => habove turn hturn.passes⟩
    rintro _ rfl
    have hself := script.passes_place w.cwd
    refine ⟨fun hle => ?_, habove _ hself⟩
    rw [entryPlace_eq, List.prefix_concat_iff] at hle
    obtain heq | hle := hle
    · exact h.stubs _ hself (heq ▸ List.prefix_append _ _)
    obtain heq | hle := List.prefix_concat_iff.1 hle
    · exact h.stubs _ hself (heq ▸ List.prefix_refl _)
    · exact h.way.not_le hle
  refine ⟨⟨fun turn hturn => outside_iff.2 (h.way turn hturn.passes), outside_iff.2 ?_,
    fun entry _ => hentry entry, ?_⟩, hentry _, fun m hm => ⟨fun place hpasses => ?_, ?_⟩⟩
  · rw [indexPlace, List.prefix_concat_iff]
    exact not_or.2 ⟨h.index, h.way.not_le⟩
  · rintro _ rfl
    exact .inl hthere
  · exact outside_iff.2 (h.list m hm place hpasses)
  · rintro _ rfl
    exact .inl hthere

/-- An extraction leaves its script as it is. -/
theorem find?_script (board : Board δ) (hspaced : Spaced site.registry.home manifest site.world)
    (hforeign : Foreign site.registry.home manifest site.world request.script)
    (hfind : site.world.find? request.script = some (.file data mode)) (device : δ) :
    (run board.transport Registry.store manifest request (site, device)).2.1.world.find?
      request.script = some (.file data mode) := by
  have hplain := hspaced.settled.plain
  obtain ⟨failure, hmake⟩ | ⟨name, h, -⟩ := makeTemporary_quartered hplain
  · rw [run, bind_apply, onWorld_apply, hmake]
    exact hfind
  have hnode := (locate_of_find? hplain hfind true).2
  have hthere : site.world.root.get? (request.script.place site.world.cwd) ≠ none := by
    rw [hnode]
    exact Option.some_ne_none _
  have hunhandled : ∀ place, place = request.script.place site.world.cwd →
      Unhandled temporaryStems site.world place := by
    rintro _ rfl
    refine ⟨fun place hpasses hle => ?_, .inl hthere⟩
    have hnot := FileAt.not_dirAt ⟨data, mode, hnode⟩
    obtain ⟨turn, hturn, hle'⟩ | hle' := hpasses.le
    · exact hnot ((h.turns turn hturn).of_below (hle.trans hle'))
    · exact hnot (h.parent.of_below (hle.trans hle'))
  -- whatever the stub is called that the device generates
  obtain ⟨stub, hnamed⟩ : ∃ stub, Named stub (staged board.transport request) (site, device) := by
    cases hstaged : (staged board.transport request (site, device)).1 with
    | error failure =>
      refine ⟨"", fun _ heq => ?_⟩
      rw [hstaged] at heq
      cases heq
    | ok bundle =>
      exact ⟨bundle.name, fun other heq => congrArg _ (Except.ok.inj (heq.symm.trans hstaged))⟩
  have hpassing : Passing site.registry.home (· = request.script.place site.world.cwd)
      (request.script.TurnsAt site.world.cwd) site.world (site, device) :=
    ⟨rfl, .refl _ hplain fun _ => dirAt_of_turnsAt hplain hfind⟩
  have hspared := spared_run hunhandled store_stepwise
    (board.sustains (enduring_spared _ _ _)) (hforeign.aside hthere stub) request hpassing hnamed
  exact hspared.find?_eq hplain hfind rfl fun _ => id

/-! ## What the script is called -/

/-- Whether a path is that of a script with the given contents that lies apart from what an
installation changes. -/
structure ScriptFile (manifest : Option Manifest) (site : Site) (data : ByteArray) (script : Path) :
    Prop extends Foreign site.registry.home manifest site.world script where
  file : ∃ mode, site.world.find? script = some (.file data mode)

/-- What a device is sent is the text of the script with the modules in its list. -/
theorem sent_of_run (board : Board δ) (hspaced : Spaced site.registry.home manifest site.world)
    (hfind : site.world.find? request.script = some (.file data mode)) (device : δ) :
    ∀ text ∈ (run board.heard.transport Registry.store manifest request
        (site, (device, []))).2.2.2,
      ∃ contents, text = some contents ∧
        edited request.modules request.script.text data = .ok contents := by
  rw [run, bind_apply, onWorld_apply]
  obtain ⟨failure, hmake⟩ | ⟨name, h, hmake⟩ := makeTemporary_quartered hspaced.settled.plain
  · rw [hmake]
    rintro text ⟨⟩
  rw [hmake]
  dsimp only
  rw [andFinally_apply]
  obtain ⟨failure, -, hrun⟩ | ⟨contents, w, hedited, -, hrun⟩ :=
    runIn_of_quartered h hspaced hfind board.heard (device, []) request.script
  · rw [hrun]
    rintro text ⟨⟩
  · rw [hrun]
    intro text htext
    exact ⟨contents, fetch_heard board _ _ _ _ _ _ _ device text htext, hedited⟩

/-- Scripts of the same contents and of any names but one come to the same. -/
theorem run_agree (board : Board δ) (hspaced : Spaced site.registry.home manifest site.world)
    {script' : Path} {mode' : Bool}
    (hfind : site.world.find? request.script = some (.file data mode))
    (hfind' : site.world.find? script' = some (.file data mode')) (hclash : ¬ Clashing request)
    (hclash' : ¬ Clashing { request with script := script' }) (device : δ) :
    let first := run board.transport Registry.store manifest request (site, device)
    let second := run board.transport Registry.store manifest { request with script := script' }
      (site, device)
    Agree Eq first.1 second.1 ∧ first.2 = second.2 := by
  obtain ⟨failure, hmake⟩ | ⟨name, h, hmake⟩ := makeTemporary_quartered hspaced.settled.plain
  · rw [run, run, bind_apply, bind_apply, onWorld_apply, hmake]
    exact ⟨rfl, rfl⟩
  let renamed := { request with script := script' }
  have hrenamed : site.world.find? renamed.script = some (.file data mode') := hfind'
  have hagree := edited_agree request.modules request.script.text script'.text data
  have hfirst := run_apply h hspaced hfind hmake hclash board device script'
  have hsecond := run_apply h hspaced hrenamed hmake hclash' board device script'
  dsimp only [renamed] at hfirst hsecond ⊢
  rw [hfirst, hsecond]
  cases hedited : edited request.modules request.script.text data with
  | error failure =>
    cases hedited' : edited request.modules script'.text data with
    | error failure' =>
      rw [hedited, hedited'] at hagree
      exact ⟨hagree, rfl⟩
    | ok contents' =>
      rw [hedited, hedited'] at hagree
      exact hagree.elim
  | ok contents =>
    cases hedited' : edited request.modules script'.text data with
    | error failure' =>
      rw [hedited, hedited'] at hagree
      exact hagree.elim
    | ok contents' =>
      rw [hedited, hedited'] at hagree
      obtain rfl : contents = contents' := hagree
      exact ⟨Agree.refl _, rfl⟩

/-- What an extraction comes to does not depend on what its script is called, and the script stays as
it is. A device that goes by what it is sent, and stores what it copies in the directory it is given,
is sent nothing but the text of the script with the modules in its list; scripts of the same contents
either fail for the same cause or come to the same, and leave behind the same. The name `device` is
the exception if modules are asked for: nothing is installed then. -/
theorem run_renamed (board : Board δ) (manifest : Option Manifest) (request : ExtractionRequest)
    (site : Site) (device : δ) (data : ByteArray)
    (hspaced : Spaced site.registry.home manifest site.world)
    (hscript : ScriptFile manifest site data request.script) :
    let first := run board.heard.transport Registry.store manifest request (site, (device, []))
    (∀ text ∈ first.2.2.2, ∃ contents, text = some contents ∧
        edited request.modules request.script.text data = .ok contents) ∧
      first.2.1.world.find? request.script = site.world.find? request.script ∧
      (∀ script', ScriptFile manifest site data script' →
        let renamed := { request with script := script' }
        let second := run board.heard.transport Registry.store manifest renamed
          (site, (device, []))
        ¬ Clashing request → ¬ Clashing renamed →
          Agree Eq first.1 second.1 ∧ first.2 = second.2) ∧
      (Clashing request → ∀ added, first.1 ≠ .ok (.installed added)) := by
  obtain ⟨mode, hfind⟩ := hscript.file
  have hsent := sent_of_run board hspaced hfind device
  have hkept := find?_script board.heard hspaced hscript.toForeign hfind (device, [])
  refine ⟨hsent, hkept.trans hfind.symm, fun script' hscript' => ?_, fun hclash added => ?_⟩
  · obtain ⟨mode', hfind'⟩ := hscript'.file
    exact fun hclash hclash' =>
      run_agree board.heard hspaced hfind hfind' hclash hclash' (device, [])
  · obtain ⟨failure, hmake⟩ | ⟨name, h, hmake⟩ := makeTemporary_quartered hspaced.settled.plain
    · rw [run, bind_apply, onWorld_apply, hmake]
      rintro ⟨⟩
    · exact run_of_clashing h hspaced hfind hmake hclash board.heard (device, []) added

/-- A board that runs every script and has one stub. -/
def copyingBoard : Board Unit where
  connect _ _ := (.ok (), ())
  runScript _ _ _ := (.ok (), ())
  copyFrom _ _ _ _ :=
    ({ entries := [("modules.json",
        .file "\x7b\"name\": \"x\", \"firmware\": \x7b\"name\": \"m\"\x7d\x7d".toUTF8 false)]
       plain := plain_directory_iff.2 ⟨by simp [plain_file, IsName], by decide⟩
       answer := .ok []
       named := by simp }, ())
  disconnect _ _ := (.ok (), ())

/-- Three scripts of the same contents, a home, a list and a place for temporary files. -/
def scriptsSite : Site where
  world := {
    root := .directory [
      ("device", .file "modules = []\n".toUTF8 false),
      ("gen.py", .file "modules = []\n".toUTF8 false),
      ("home", .directory []),
      ("list.py", .file "stubs = []\n".toUTF8 false),
      ("make.py", .file "modules = []\n".toUTF8 false),
      ("tmp", .directory [])]
    cwd := []
    tempDir := ⟨"tmp"⟩
    clock := newYear 2025 }
  registry := { home := ⟨"home"⟩, records := [] }

deriving instance DecidableEq for Extracted

/-- The request to take stubs with a script of the given name, with a module for its list. -/
def generating (script : String) : ExtractionRequest :=
  { port := "p", script := ⟨script⟩, modules := some ["machine"] }

/-- What taking the stubs comes to. -/
def generated (script : String) :
    Except Failure Extracted × Site × Unit × List (Option ByteArray) :=
  run copyingBoard.heard.transport Registry.store (some (manifestAt "list.py")) (generating script)
    (scriptsSite, ((), []))

theorem run_renamed_of_copying :
    (generated "gen.py").1 = .ok (.installed
        { record := deviceRecord, alreadyInstalled := false, manifestUpdated := true }) ∧
      (generated "gen.py").2.2.2 = [some "modules = [\"machine\"]\n".toUTF8] ∧
      (generated "gen.py").2.1.world.find? ⟨"gen.py"⟩ = scriptsSite.world.find? ⟨"gen.py"⟩ ∧
      Agree Eq (generated "gen.py").1 (generated "make.py").1 ∧
      (generated "gen.py").2 = (generated "make.py").2 := by
  have hplain : scriptsSite.world.root.Plain :=
    plain_directory_iff.2 ⟨by simp [plain_file, plain_empty, IsName], by decide⟩
  have hspaced : Spaced scriptsSite.registry.home (some (manifestAt "list.py"))
      scriptsSite.world := by
    refine .of_straight (.of_straight hplain (by decide +kernel) ⟨_, rfl⟩) (by decide +kernel)
      (by decide +kernel) ?_ (by decide +kernel)
    rintro _ ⟨⟩
    exact ⟨by decide +kernel, by decide +kernel⟩
  have hscript : ∀ script ∈ ["gen.py", "make.py"], ScriptFile (some (manifestAt "list.py"))
      scriptsSite "modules = []\n".toUTF8 ⟨script⟩ := by
    have hread : ∀ script ∈ ["gen.py", "make.py"],
        (Files.read ⟨script⟩ scriptsSite.world).1 = .ok "modules = []\n".toUTF8 := by
      decide +kernel
    have hapart : ∀ script ∈ ["gen.py", "make.py"], ".." ∉ Path.names ⟨script⟩ ∧
        ¬ Path.place [] ⟨script⟩ <+: Path.place [] ⟨"home"⟩ ∧
        ¬ Path.place [] ⟨"home"⟩ ++ [stubsName] <+: Path.place [] ⟨script⟩ ∧
        Path.place [] ⟨script⟩ ≠ indexPlace (Path.place [] ⟨"home"⟩) ∧
        ¬ Path.place [] ⟨script⟩ <+: Path.place [] ⟨"list.py"⟩ := by
      decide +kernel
    have hkept : ∀ script : Path,
        (Files.read script scriptsSite.world).2 = scriptsSite.world := by
      intro script
      have hkeeps : Keeps (· = scriptsSite.world) (Files.read script) := keeps_read script
      exact hkeeps _ rfl
    intro script hmem
    obtain ⟨hstraight, hhome, hstubs, hindex, hlist⟩ := hapart script hmem
    refine ⟨.of_straight (by decide +kernel) hstraight hhome hstubs hindex ?_, ?_⟩
    · rintro _ ⟨⟩
      exact ⟨by decide +kernel, hlist⟩
    · obtain ⟨-, mode, hfind, -⟩ := get?_of_read hplain (Prod.ext (hread script hmem) (hkept _))
      exact ⟨mode, hfind⟩
  have hclash : ∀ script ∈ ["gen.py", "make.py"], ¬ Clashing (generating script) := by
    decide +kernel
  have hrun := run_renamed copyingBoard (some (manifestAt "list.py")) (generating "gen.py")
    scriptsSite () _ hspaced (hscript "gen.py" (by simp))
  have hsame := hrun.2.2.1 ⟨"make.py"⟩ (hscript "make.py" (by simp)) (hclash "gen.py" (by simp))
    (hclash "make.py" (by simp))
  obtain ⟨hinstalled, hsent⟩ : (generated "gen.py").1 = .ok (.installed
        { record := deviceRecord, alreadyInstalled := false, manifestUpdated := true }) ∧
      (generated "gen.py").2.2.2 = [some "modules = [\"machine\"]\n".toUTF8] := by
    decide +kernel
  refine ⟨hinstalled, hsent, ?_, hsame⟩
  rw [generated]
  exact hrun.2.1

/-- Under the name `device` a script is staged where the stubs are to be copied to, so they cannot be
copied any more. -/
theorem not_agree_of_clashing :
    (Files.read ⟨"device"⟩ scriptsSite.world).1 = (Files.read ⟨"gen.py"⟩ scriptsSite.world).1 ∧
      (generated "gen.py").1 = .ok (.installed
        { record := deviceRecord, alreadyInstalled := false, manifestUpdated := true }) ∧
      (generated "device").1 = .error (.fileSystem FileFault.alreadyExists.message) := by
  decide +kernel

end Extraction

end StubManager
