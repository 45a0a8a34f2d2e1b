import StubManager.Extraction
import StubManager.Proofs.Registry.Keeping

/-!
# What sessions keep

What the steps of a transport keep (`Transport.Sustains`), a whole session with it keeps, however it
ends (`keeps_conduct`). A transport that changes nothing but the directory it copies into keeps an
index beside that directory (`Transport.Keeping`).
-/

namespace StubManager

open Node Running World Registry

variable {δ α β : Type}

/-! ## Steps of a session -/

namespace Session

theorem bind_apply (x : SessionAction δ α) (f : α → SessionAction δ β) (session : Session)
    (link : Link δ) :
    (x >>= f) session link = match x session link with
      | ((.ok a, session'), link') => f a session' link'
      | ((.error failure, session'), link') => ((.error failure, session'), link') := by
  change ExceptT.bind x f session link = _
  simp only [ExceptT.bind, ExceptT.mk, Bind.bind, StateT.bind, ExceptT.bindCont]
  rcases x session link with ⟨⟨_ | _, _⟩, _⟩ <;> rfl

theorem tryCatch_apply (x : SessionAction δ α) (f : Failure → SessionAction δ α)
    (session : Session) (link : Link δ) :
    (MonadExcept.tryCatch x f) session link = match x session link with
      | ((.ok a, session'), link') => ((.ok a, session'), link')
      | ((.error failure, session'), link') => f failure session' link' := by
  change ExceptT.tryCatch x f session link = _
  simp only [ExceptT.tryCatch, ExceptT.mk, Bind.bind, StateT.bind]
  rcases x session link with ⟨⟨_ | _, _⟩, _⟩ <;> rfl

theorem connection_apply {session : Session} (hheld : session.held) (link : Link δ) :
    connection session link = ((.ok session.port, session), link) := by
  rw [connection, bind_apply]
  change (if session.held = true then _ else _ : SessionAction δ String) session link = _
  rw [if_pos hheld]
  rfl

/-- A script that fails leaves the session connected as well. -/
theorem runScript_apply (transport : Transport δ) (script : Path) {session : Session}
    (hheld : session.held) (link : Link δ) :
    runScript transport script session link
      = (((transport.runScript session.port script link).1,
          { session with state := .connected }),
          (transport.runScript session.port script link).2) := by
  rw [runScript, bind_apply]
  change (connection >>= _) { session with state := .scriptRunning } link = _
  have hrunning : Session.held { session with state := .scriptRunning } := hheld
  rw [bind_apply, connection_apply hrunning]
  change (MonadExcept.tryCatch (lift (transport.runScript session.port script)) _ >>= _)
    { session with state := .scriptRunning } link = _
  rw [bind_apply, tryCatch_apply, lift]
  rcases transport.runScript session.port script link with ⟨_ | _, _⟩ <;> rfl

theorem copyFrom_apply (transport : Transport δ) (remote : String) (directory : Path)
    {session : Session} (hheld : session.held) (link : Link δ) :
    copyFrom transport remote directory session link
      = (((transport.copyFrom session.port remote directory link).1, session),
          (transport.copyFrom session.port remote directory link).2) := by
  rw [copyFrom, bind_apply, connection_apply hheld]
  rfl

theorem close_apply (transport : Transport δ) {session : Session} (hheld : session.held)
    (link : Link δ) :
    close transport session link
      = (((transport.disconnect session.port link).1,
          { session with held := false, state := .disconnected }),
          (transport.disconnect session.port link).2) := by
  rw [close, bind_apply]
  change (if session.held = true then _ else _ : SessionAction δ Unit) session link = _
  rw [if_pos hheld]
  rfl

theorem drop_of_held (transport : Transport δ) {session : Session} (hheld : session.held)
    (link : Link δ) :
    drop transport session link = (transport.disconnect session.port link).2 := by
  rw [drop, close_apply transport hheld]

theorem drop_of_not_held (transport : Transport δ) {session : Session}
    (hheld : session.held = false) (link : Link δ) :
    drop transport session link = link := by
  rw [drop, close, bind_apply]
  change ((if session.held = true then _ else _ : SessionAction δ Unit) session link).2 = _
  rw [if_neg (by simp [hheld])]
  rfl

end Session

/-- Whether a step of a session keeps a property of the world, however it ends. -/
def SessionKeeps (I : World → Prop) (action : SessionAction δ α) : Prop :=
  ∀ session link, I link.world → I (action session link).2.world

namespace SessionKeeps

variable {I : World → Prop}

theorem bind {x : SessionAction δ α} {f : α → SessionAction δ β} (hx : SessionKeeps I x)
    (hf : ∀ a, SessionKeeps I (f a)) : SessionKeeps I (x >>= f) := by
  intro session link h
  have hstep := hx session link h
  rw [Session.bind_apply]
  generalize x session link = step at hstep
  obtain ⟨⟨result, session'⟩, link'⟩ := step
  cases result with
  | error failure => exact hstep
  | ok a => exact hf a session' link' hstep

theorem tryCatch {x : SessionAction δ α} {f : Failure → SessionAction δ α} (hx : SessionKeeps I x)
    (hf : ∀ failure, SessionKeeps I (f failure)) : SessionKeeps I (tryCatch x f) := by
  intro session link h
  have hstep := hx session link h
  change I ((MonadExcept.tryCatch x f) session link).2.world
  rw [Session.tryCatch_apply]
  generalize x session link = step at hstep
  obtain ⟨⟨result, session'⟩, link'⟩ := step
  cases result with
  | error failure => exact hf failure session' link' hstep
  | ok a => exact hstep

theorem lift {action : LinkAction δ α} (h : Keeps (fun link => I link.world) action) :
    SessionKeeps I (Session.lift action) := fun _ link => h link

end SessionKeeps

/-! ## Transports -/

/-- Whether a transport keeps an index, except that it may lie in a directory to copy into. -/
structure Transport.Keeping (base : Path) (transport : Transport δ) : Prop where
  connect : ∀ port (link : Link δ), link.world.root.Plain →
    Kept base link.world (transport.connect port link).2.world
  runScript : ∀ port script (link : Link δ), link.world.root.Plain →
    Kept base link.world (transport.runScript port script link).2.world
  copyFrom : ∀ port remote directory (link : Link δ), link.world.root.Plain →
    Beside base link.world.cwd (directory.place link.world.cwd) →
    Kept base link.world (transport.copyFrom port remote directory link).2.world
  disconnect : ∀ port (link : Link δ), link.world.root.Plain →
    Kept base link.world (transport.disconnect port link).2.world

/-- Whether the steps of a transport keep a property of the world, copying into suitable
directories only. -/
structure Transport.Sustains (I : World → Prop) (suitable : Path → Prop) (transport : Transport δ) :
    Prop where
  connect : ∀ port, Keeps (fun link : Link δ => I link.world) (transport.connect port)
  runScript : ∀ port script,
    Keeps (fun link : Link δ => I link.world) (transport.runScript port script)
  copyFrom : ∀ port remote directory, suitable directory →
    Keeps (fun link : Link δ => I link.world) (transport.copyFrom port remote directory)
  disconnect : ∀ port, Keeps (fun link : Link δ => I link.world) (transport.disconnect port)

/-- What a transport keeps from the start of each step on, it keeps from an earlier start on. -/
theorem Transport.Keeping.sustains {base : Path} {transport : Transport δ}
    (h : transport.Keeping base) (w : World) :
    transport.Sustains (Kept base w) fun directory =>
      Beside base w.cwd (directory.place w.cwd) where
  connect port link hlink := hlink.trans (h.connect port link hlink.plain)
  runScript port script link hlink := hlink.trans (h.runScript port script link hlink.plain)
  copyFrom port remote directory hdirectory link hlink := by
    rw [← hlink.cwd] at hdirectory
    exact hlink.trans (h.copyFrom port remote directory link hlink.plain hdirectory)
  disconnect port link hlink := hlink.trans (h.disconnect port link hlink.plain)

namespace Session

variable {I : World → Prop} {suitable : Path → Prop} {transport : Transport δ}

theorem keeps_start (h : transport.Sustains I suitable) (port : String) :
    Keeps (fun link : Link δ => I link.world) (start transport port) :=
  (h.connect port).bind fun _ _ _ _ => keeps_pure _

theorem keeps_connection : SessionKeeps I (connection : SessionAction δ String) := by
  refine .bind (fun _ _ hlink => hlink) fun session => ?_
  split
  · exact fun _ _ hlink => hlink
  · exact fun _ _ hlink => hlink

theorem keeps_runScript (h : transport.Sustains I suitable) (script : Path) :
    SessionKeeps I (Session.runScript transport script) := by
  refine .bind (fun _ _ hlink => hlink) fun _ => .bind keeps_connection fun port => ?_
  refine .bind (.tryCatch (.lift (h.runScript port script)) fun failure => ?_) fun _ => ?_
  · exact .bind (fun _ _ hlink => hlink) fun _ _ _ hlink => hlink
  · exact fun _ _ hlink => hlink

theorem keeps_copyFrom (h : transport.Sustains I suitable) (remote : String) {directory : Path}
    (hdirectory : suitable directory) :
    SessionKeeps I (Session.copyFrom transport remote directory) :=
  .bind keeps_connection fun port => .lift (h.copyFrom port remote directory hdirectory)

theorem keeps_close (h : transport.Sustains I suitable) :
    SessionKeeps I (Session.close transport) := by
  refine .bind (fun _ _ hlink => hlink) fun session => ?_
  split
  · exact .bind (fun _ _ hlink => hlink) fun _ => .lift (h.disconnect session.port)
  · exact fun _ _ hlink => hlink

/-- The end of a session changes no more than its steps. -/
theorem keeps_conduct (h : transport.Sustains I suitable) {body : SessionAction δ α}
    (hbody : SessionKeeps I body) (session : Session) :
    Keeps (fun link : Link δ => I link.world) (session.conduct transport body) :=
  fun link hlink => keeps_close h _ _ (hbody session link hlink)

end Session

end StubManager
