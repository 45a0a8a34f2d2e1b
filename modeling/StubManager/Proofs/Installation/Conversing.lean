import StubManager.Proofs.Device.Recording
import StubManager.Proofs.FileTree.Lodging
import StubManager.Proofs.Installation.Extracting

/-!
# How an extraction talks to its device

`run_attempt`: the device is called only once a script is staged, what the calls come
to is an `Attempt`, a device that cannot be reached is told from all other failures, and unless the
conversation succeeds everything is as it was before.
-/

namespace StubManager

open Running World

variable {δ : Type}

/-- The calls of an extraction to its device, from the first one on. -/
inductive Attempt (port : String) (script directory : Path) :
    List (Call × Option Failure) → Prop where
  | refused (failure : Failure) : Attempt port script directory [(.connect port, some failure)]
  | connected {conversation : List (Call × Option Failure)}
    (h : Conversation port script directory conversation) :
    Attempt port script directory ((.connect port, none) :: conversation)

namespace Extraction

variable {workdir : Path} {transport : Transport δ} {store : Store} {manifest : Option Manifest}
  {request : ExtractionRequest}

/-- What an extraction does once its script is staged. -/
def fetch (workdir : Path) (transport : Transport δ) (store : Store) (manifest : Option Manifest)
    (port : String) (script : Path) : DeviceWork δ Extracted := do
  match ← ExceptT.lift (onLink (Session.start transport port)).run with
  | .error failure =>
    if failure.isUnreachable then return .unreachable failure else throw failure
  | .ok session =>
    let directory ← onLink (session.conduct transport (generate transport script workdir))
    return .installed (← onSite (installGenerated store manifest port directory))

/-- What comes of a staged script, by what each call of the transport comes to. -/
theorem fetch_apply (workdir : Path) (transport : Transport δ) (store : Store)
    (manifest : Option Manifest) (port : String) (script : Path) (site : Site) (device : δ) :
    fetch workdir transport store manifest port script (site, device) =
      match transport.connect port { world := site.world, device } with
      | (.error failure, link) =>
        (if failure.isUnreachable then .ok (.unreachable failure) else .error failure,
          ({ site with world := link.world }, link.device))
      | (.ok (), link) =>
        match Session.conduct transport { port, held := true, state := .connected }
            (generate transport script workdir) link with
        | (.error failure, link) =>
          (.error failure, ({ site with world := link.world }, link.device))
        | (.ok directory, link) =>
          let ended := installGenerated store manifest port directory
            { site with world := link.world }
          (ended.1.map .installed, (ended.2, link.device)) := by
  rw [fetch, bind_apply, lift_apply, onLink_apply, Session.start, bind_apply]
  rcases transport.connect port { world := site.world, device } with ⟨failure | _, link⟩
  · dsimp only
    split <;> rfl
  change (onLink (Session.conduct transport _ (generate transport script workdir)) >>= _)
    ({ site with world := link.world }, link.device) = _
  rw [bind_apply, onLink_apply]
  dsimp only
  rcases Session.conduct transport { port, held := true, state := .connected }
    (generate transport script workdir) link with ⟨failure | directory, link⟩
  · rfl
  dsimp only
  rw [bind_apply, onSite_apply]
  rcases installGenerated store manifest port directory { site with world := link.world }
    with ⟨failure | added, site⟩
  · rfl
  · rfl

/-- A script is staged, and what comes of it is fetched. -/
theorem runIn_apply (workdir : Path) (transport : Transport δ) (store : Store)
    (manifest : Option Manifest) (request : ExtractionRequest) (site : Site) (device : δ) :
    runIn workdir transport store manifest request (site, device) =
      match stageScript request workdir site.world with
      | (.error failure, w) => (.error failure, ({ site with world := w }, device))
      | (.ok script, w) =>
        fetch workdir transport store manifest request.port script
          ({ site with world := w }, device) := by
  change (onWorld (stageScript request workdir) >>=
    fetch workdir transport store manifest request.port) (site, device) = _
  rw [bind_apply, onWorld_apply]
  rcases stageScript request workdir site.world with ⟨failure | script, w⟩ <;> rfl

/-! ## Calls -/

/-- A refused connection is the only call, and what it failed with is what is told. -/
theorem eq_unreachable_iff_of_refused (port : String) (w : World) (failure failure' : Failure) :
    (if failure.isUnreachable then .ok (.unreachable failure) else .error failure :
        Except Failure Extracted) = .ok (.unreachable failure') ↔
      failure'.isUnreachable ∧
        calls [⟨.connect port, w, some failure⟩] = [(.connect port, some failure')] := by
  have hcalls : calls [⟨.connect port, w, some failure⟩] = [(.connect port, some failure')] ↔
      failure = failure' := by
    simp [calls]
  rw [hcalls]
  constructor
  · intro h
    split at h
    · next hkind =>
      cases h
      exact ⟨hkind, rfl⟩
    · cases h
  · rintro ⟨hkind, rfl⟩
    rw [if_pos hkind]

theorem calls_ne_of_connected (port : String) (w : World) (exchanges : List Exchange)
    (failure : Failure) :
    calls (⟨.connect port, w, none⟩ :: exchanges) ≠ [(.connect port, some failure)] := by
  simp [calls]

theorem succeeded_connected {port : String} {w : World} {exchanges : List Exchange} :
    Succeeded port (calls (⟨.connect port, w, none⟩ :: exchanges)) ↔
      Succeeded port (calls exchanges) := by
  simp [Succeeded, calls]

theorem map_installed_ne (result : Except Failure Added) (failure : Failure) :
    result.map Extracted.installed ≠ .ok (.unreachable failure) := by
  cases result <;> nofun

/-- What a conversation keeps is kept from connecting on. -/
theorem keeps_conversation {I : World → Prop}
    (htransport : transport.Sustains I (· = workdir.join "device")) (port : String) (script : Path)
    {link : Link δ} (hI : I link.world) :
    I (Session.conduct transport { port, held := true, state := .connected }
      (generate transport script workdir) link).2.world :=
  Session.keeps_conduct htransport (keeps_generate htransport script rfl) _ link hI

/-- With a script that is staged: which calls there are, what they decide, and what is kept unless
the conversation succeeds. -/
theorem fetch_cases (workdir : Path) (transport : Transport δ) (store : Store)
    (manifest : Option Manifest) (port : String) (script : Path) (site : Site) (device : δ) :
    ∃ result site' device' exchanges,
      fetch workdir transport store manifest port script (site, device)
        = (result, (site', device')) ∧
      fetch workdir transport.recorded store manifest port script (site, (device, []))
        = (result, (site', (device', exchanges))) ∧
      exchanges.head?.map (·.world) = some site.world ∧
      Attempt port script (workdir.join "device") (calls exchanges) ∧
      (∀ failure, result = .ok (.unreachable failure) ↔
        failure.isUnreachable ∧ calls exchanges = [(.connect port, some failure)]) ∧
      (¬ Succeeded port (calls exchanges) → site'.registry = site.registry ∧
        ∀ I : World → Prop, I site.world →
          transport.Sustains I (· = workdir.join "device") → I site'.world) := by
  have hconnected : ∀ I : World → Prop, transport.Sustains I (· = workdir.join "device") →
      I site.world → I (transport.connect port { world := site.world, device }).2.world :=
    fun I htransport hI => htransport.connect port { world := site.world, device } hI
  simp only [fetch_apply, Transport.recorded_connect]
  generalize transport.connect port { world := site.world, device } = connected at hconnected
  obtain ⟨failure | _, link⟩ := connected
  · exact ⟨_, _, _, [⟨_, site.world, some failure⟩], rfl, rfl, rfl, .refused failure,
      eq_unreachable_iff_of_refused port site.world failure,
      fun _ => ⟨rfl, fun I hI htransport => hconnected I htransport hI⟩⟩
  obtain ⟨ended, link', exchanges, hrun, hrun', hattempt, hok⟩ :=
    conduct_cases transport port script workdir link
  have hnot := calls_ne_of_connected port site.world exchanges
  dsimp only
  rw [hrun, failureOf, hrun']
  cases ended with
  | error failure =>
    refine ⟨_, _, _, _ :: exchanges, rfl, rfl, rfl, .connected hattempt, fun failure' => ?_,
      fun _ => ⟨rfl, fun I hI htransport => ?_⟩⟩
    · exact iff_of_false (by simp) fun h => hnot failure' h.2
    · have hkept := keeps_conversation htransport port script (hconnected I htransport hI)
      rwa [hrun] at hkept
  | ok directory =>
    refine ⟨_, _, _, _ :: exchanges, rfl, rfl, rfl, .connected hattempt, fun failure' => ?_,
      fun hfailed => ?_⟩
    · exact iff_of_false (map_installed_ne _ failure') fun h => hnot failure' h.2
    · exact absurd (succeeded_connected.2 (hok.1 ⟨directory, rfl⟩)) hfailed

/-- With a working directory that is there already: nothing is called unless the script is staged,
and then all is as for a staged one. -/
theorem runIn_cases (workdir : Path) (transport : Transport δ) (store : Store)
    (manifest : Option Manifest) (request : ExtractionRequest) (site : Site) (device : δ) :
    ∃ result site' device' exchanges,
      runIn workdir transport store manifest request (site, device) = (result, (site', device')) ∧
      runIn workdir transport.recorded store manifest request (site, (device, []))
        = (result, (site', (device', exchanges))) ∧
      (exchanges = [] ∧ (∃ failure, result = .error failure) ∨
        ∃ script w, stageScript request workdir site.world = (.ok script, w) ∧
          exchanges.head?.map (·.world) = some w ∧
          Attempt request.port script (workdir.join "device") (calls exchanges)) ∧
      (∀ failure, result = .ok (.unreachable failure) ↔
        failure.isUnreachable ∧ calls exchanges = [(.connect request.port, some failure)]) ∧
      (¬ Succeeded request.port (calls exchanges) → site'.registry = site.registry ∧
        ∀ I : World → Prop, I (stageScript request workdir site.world).2 →
          transport.Sustains I (· = workdir.join "device") → I site'.world) := by
  simp only [runIn_apply]
  rcases hstage : stageScript request workdir site.world with ⟨failure | script, w⟩
  · refine ⟨_, _, _, [], rfl, rfl, .inl ⟨rfl, failure, rfl⟩, ?_, fun _ => ⟨rfl, ?_⟩⟩
    · simp [calls]
    · exact fun I hI _ => hI
  · obtain ⟨result, site', device', exchanges, hrun, hrun', hhead, hattempt, hunreachable, hkept⟩ :=
      fetch_cases workdir transport store manifest request.port script
        { site with world := w } device
    exact ⟨result, site', device', exchanges, hrun, hrun',
      .inr ⟨script, w, rfl, hhead, hattempt⟩, hunreachable, hkept⟩

/-! ## The working directory -/

/-- Whether a directory is still there, and kept places are as they were in `w` without it. -/
structure Housed (kept : List String → Prop) (w : World) (workdir : Path) (w' : World) : Prop where
  cwd : w'.cwd = w.cwd
  housed : ∃ place, w'.locate false workdir = .ok (.node place) ∧ w'.root.DirAt place ∧
    ∀ other, kept other → (w'.root.erase place).get? other = w.root.get? other

theorem housed_of_holds {w w' : World} {l : Lodging w} (h : l.Holds w')
    (hordered : w.root.Ordered) (kept : List String → Prop) : Housed kept w l.path w' :=
  ⟨h.cwd, l.place, h.locate_path false, h.dirAt, fun other _ => by rw [h.erase_root hordered]⟩

/-- Without the directory the kept places are as they were. -/
theorem Housed.removeTree {kept : List String → Prop} {w w' : World} {workdir : Path}
    (h : Housed kept w workdir w') :
    (Files.quietly (Files.removeTree workdir) w').cwd = w.cwd ∧
      ∀ place, kept place →
        (Files.quietly (Files.removeTree workdir) w').root.get? place = w.root.get? place := by
  obtain ⟨hcwd, place, hlocate, ⟨entries, hentries⟩, hkept⟩ := h
  have hremove : Files.removeTree workdir w' = (.ok (), w'.erase place) := by
    rw [Files.removeTree, bind_apply, orFault_apply, hlocate]
    dsimp only
    rw [bind_apply, get_apply]
    dsimp only
    rw [hentries]
    rfl
  rw [quietly_apply, hremove]
  exact ⟨hcwd, hkept⟩

/-! ## Extractions -/

/-- An extraction calls its device only once the script is staged, and leaves it exactly once if it
was connected to. It ends without a failure and without stubs if and only if it could not connect
because the device is unreachable. Unless script, copy and leave-taking all succeed, the records are
the same and so are all places that the transport spares when it copies into the working directory,
the home of the registry and the manifest among them. -/
theorem run_attempt (transport : Transport δ) (store : Store) (manifest : Option Manifest)
    (request : ExtractionRequest) (site : Site) (device : δ) :
    ∃ result site' device' exchanges,
      run transport store manifest request (site, device) = (result, (site', device')) ∧
      run transport.recorded store manifest request (site, (device, []))
        = (result, (site', (device', exchanges))) ∧
      (exchanges = [] ∧ (∃ failure, result = .error failure) ∨
        ∃ workdir w₁ script w₂,
          Files.makeTemporary "mpstubs-create-" site.world = (.ok workdir, w₁) ∧
          stageScript request workdir w₁ = (.ok script, w₂) ∧
          exchanges.head?.map (·.world) = some w₂ ∧
          Attempt request.port script (workdir.join "device") (calls exchanges)) ∧
      (∀ failure, result = .ok (.unreachable failure) ↔
        failure.isUnreachable ∧ calls exchanges = [(.connect request.port, some failure)]) ∧
      (¬ Succeeded request.port (calls exchanges) → site'.registry = site.registry ∧
        ∀ kept : List String → Prop, site.world.root.Ordered →
          (∀ workdir w₁, Files.makeTemporary "mpstubs-create-" site.world = (.ok workdir, w₁) →
            transport.Sustains (Housed kept site.world workdir) (· = workdir.join "device")) →
          site'.world.cwd = site.world.cwd ∧
            ∀ place, kept place → site'.world.root.get? place = site.world.root.get? place) := by
  have hstem : '/' ∉ "mpstubs-create-".toList ∧ 2 < "mpstubs-create-".length := by decide
  rw [run, bind_apply, onWorld_apply, run, bind_apply, onWorld_apply]
  obtain ⟨failure, hmake⟩ | ⟨l, hmake⟩ := Lodging.of_makeTemporary hstem site.world
  · rw [hmake]
    refine ⟨_, _, _, [], rfl, rfl, .inl ⟨rfl, failure, rfl⟩, ?_, fun _ => ⟨rfl, ?_⟩⟩
    · simp [calls]
    · exact fun _ _ _ => ⟨rfl, fun _ _ => rfl⟩
  obtain ⟨result, site', device', exchanges, hrun, hrun', hattempt, hunreachable, hkept⟩ :=
    runIn_cases l.path transport store manifest request
      { site with world := site.world.put l.place (.directory []) } device
  rw [hmake]
  dsimp only [andFinally]
  rw [hrun, hrun']
  refine ⟨_, _, _, _, rfl, rfl, ?_, hunreachable, fun hfailed => ?_⟩
  · refine hattempt.imp_right ?_
    rintro ⟨script, w, hstage, hhead, hattempt⟩
    exact ⟨l.path, _, script, w, rfl, hstage, hhead, hattempt⟩
  · obtain ⟨hregistry, hkeeps⟩ := hkept hfailed
    refine ⟨hregistry, fun kept hordered htransport => ?_⟩
    have hstage : Keeps l.Holds (stageScript request l.path) :=
      keeps_stageScript_of request fun _ hname => l.keeps_replace hname
    have hstaged := housed_of_holds (hstage _ l.holds_put) hordered kept
    exact (hkeeps _ hstaged (htransport l.path _ rfl)).removeTree

/-- Answers every call but the last one. -/
def clingingTransport : Transport Unit where
  connect _ := pure ()
  runScript _ _ := pure ()
  copyFrom _ _ directory := pure directory
  disconnect port := throw (.deviceUnreachable port "busy")

theorem clingingTransport_sustains {I : World → Prop} {suitable : Path → Prop} :
    clingingTransport.Sustains I suitable where
  connect _ := keeps_pure _
  runScript _ _ := keeps_pure _
  copyFrom _ _ _ _ := keeps_pure _
  disconnect _ := keeps_throw _

/-- A script and a place for temporary files. -/
def scriptSite : Site where
  world := {
    root := .directory [("list.py", .file .empty false), ("tmp", .directory [])]
    cwd := []
    tempDir := ⟨"tmp"⟩
    clock := ⟨2025, 1, 1, 0, 0, 0, 0⟩ }
  registry := { home := ⟨"home"⟩, records := [] }

/-- A device that cannot be left is not taken for one that cannot be reached. -/
theorem run_attempt_of_clinging :
    let request : ExtractionRequest := { port := "p", script := ⟨"list.py"⟩ }
    let ended := run clingingTransport Registry.store none request (scriptSite, ())
    calls (run clingingTransport.recorded Registry.store none request
        (scriptSite, ((), []))).2.2.2
      = [(.connect "p", none), (.runScript "p" ⟨"list.py"⟩, none),
        (.copyFrom "p" "/stubs" ⟨"tmp/mpstubs-create-XXXXXX/device"⟩, none),
        (.disconnect "p", some (.deviceUnreachable "p" "busy"))] ∧
      (∀ failure, ended.1 ≠ .ok (.unreachable failure)) ∧
      ended.2.1.registry = scriptSite.registry ∧
      ∀ place, ended.2.1.world.root.get? place = scriptSite.world.root.get? place := by
  intro request ended
  obtain ⟨result, site', device', exchanges, hrun, hrun', -, hunreachable, hkept⟩ :=
    run_attempt clingingTransport Registry.store none request scriptSite ()
  have hcalls : calls (run clingingTransport.recorded Registry.store none request
        (scriptSite, ((), []))).2.2.2
      = [(.connect "p", none), (.runScript "p" ⟨"list.py"⟩, none),
        (.copyFrom "p" "/stubs" ⟨"tmp/mpstubs-create-XXXXXX/device"⟩, none),
        (.disconnect "p", some (.deviceUnreachable "p" "busy"))] := by
    decide +kernel
  have hcalls' := hcalls
  rw [hrun'] at hcalls'
  dsimp only at hcalls'
  have hfailed : ¬ Succeeded request.port (calls exchanges) := by
    rw [hcalls']
    rintro ⟨script, directory, -, -, hleft⟩
    simp [request] at hleft
  have hplain : scriptSite.world.root.Plain :=
    Node.plain_directory_iff.2 ⟨by simp [Node.plain_directory_iff, Node.plain_file, IsName],
      (by decide : ["list.py", "tmp"].Pairwise (· < ·))⟩
  obtain ⟨hregistry, hsame⟩ := hkept hfailed
  obtain ⟨-, hsame⟩ := hsame (fun _ => True) hplain.ordered fun _ _ _ => clingingTransport_sustains
  have hended : ended = (result, (site', device')) := hrun
  rw [hended]
  refine ⟨hcalls, fun failure heq => ?_, hregistry, fun place => hsame place trivial⟩
  obtain ⟨-, hrefused⟩ := (hunreachable failure).1 heq
  rw [hcalls'] at hrefused
  cases hrefused

end Extraction

end StubManager
