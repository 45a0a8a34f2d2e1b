import StubManager.Proofs.Device.Recording

/-!
# Sessions are closed once

A session is opened, asked for one step after the other, and ended by a call or by being dropped
(`Session.use`). However the calls of the transport end, the device is left exactly once, by the
last call of all, and the session is connected as long as it holds the connection
(`Session.use_cases`).
-/

namespace StubManager

namespace Session

variable {δ : Type}

/-! ## Uses of a session -/

/-- What can be asked of a session. -/
inductive Step where
  | runScript (script : Path)
  | copyFrom (remote : String) (directory : Path)
deriving DecidableEq, Repr

/-- The call of the transport that a step comes to. -/
def Step.call (port : String) : Step → Call
  | runScript script => .runScript port script
  | copyFrom remote directory => .copyFrom port remote directory

/-- One step of a session, whatever it comes to. -/
def Step.take (transport : Transport δ) : Step → Session × Link δ → Session × Link δ
  | runScript script, (session, link) =>
    let ((_, session), link) := Session.runScript transport script session link
    (session, link)
  | copyFrom remote directory, (session, link) =>
    let ((_, session), link) := Session.copyFrom transport remote directory session link
    (session, link)

/-- The steps of a session one after the other; those that fail do not stop the others. -/
def takeAll (transport : Transport δ) (steps : List Step) (state : Session × Link δ) :
    Session × Link δ :=
  steps.foldl (fun state step => step.take transport state) state

/-- How a session comes to its end. -/
inductive Ending where
  /-- It is ended by a call, and dropped after that. -/
  | disconnect
  | drop
deriving DecidableEq, Repr

/-- Closes a session, whatever that comes to. -/
def shut (transport : Transport δ) : Session × Link δ → Session × Link δ
  | (session, link) =>
    let ((_, session), link) := close transport session link
    (session, link)

/-- Ends a session. A session that was ended by a call is dropped as well. -/
def Ending.take (transport : Transport δ) : Ending → Session × Link δ → Session × Link δ
  | .disconnect, state => shut transport (shut transport state)
  | .drop, state => shut transport state

/-- A session from its beginning to its end; none if the device cannot be connected to. -/
def use (transport : Transport δ) (port : String) (steps : List Step) (ending : Ending)
    (link : Link δ) : Option Session × Link δ :=
  match start transport port link with
  | (.error _, link) => (none, link)
  | (.ok session, link) =>
    let (session, link) := ending.take transport (takeAll transport steps (session, link))
    (some session, link)

/-! ## Calls of a session -/

/-- A link whose calls are recorded. -/
def recordedLink (link : Link δ) (exchanges : List Exchange) : Link (δ × List Exchange) :=
  { world := link.world, device := (link.device, exchanges) }

/-- A session that holds its connection. -/
def connected (port : String) : Session := { port, held := true, state := .connected }

/-- A session that is over. -/
def disconnected (port : String) : Session := { port, held := false, state := .disconnected }

/-- A session that is started is connected. -/
theorem start_apply (transport : Transport δ) (port : String) (link : Link δ) :
    start transport port link
      = ((transport.connect port link).1.map fun _ => connected port,
        (transport.connect port link).2) := by
  rw [start, Running.bind_apply]
  rcases transport.connect port link with ⟨_ | _, _⟩ <;> rfl

theorem start_recorded (transport : Transport δ) (port : String) (link : Link δ) :
    start transport.recorded port (recordedLink link [])
      = ((transport.connect port link).1.map fun _ => connected port,
        recordedLink (transport.connect port link).2
          [⟨.connect port, link.world, failureOf (transport.connect port link).1⟩]) := by
  rw [start_apply]
  rfl

/-- A step is one call, and the session is connected after it. -/
theorem take_connected (transport : Transport δ) (step : Step) (port : String) (link : Link δ) :
    ∃ link' exchange, exchange.call = step.call port ∧
      step.take transport (connected port, link) = (connected port, link') ∧
      ∀ before, step.take transport.recorded (connected port, recordedLink link before)
        = (connected port, recordedLink link' (before ++ [exchange])) := by
  have hheld : (connected port).held := rfl
  cases step with
  | runScript script =>
    refine ⟨(transport.runScript port script link).2, ⟨.runScript port script, link.world,
      failureOf (transport.runScript port script link).1⟩, rfl, ?_, fun before => ?_⟩
    · rw [Step.take, runScript_apply transport script hheld]
      rfl
    · rw [Step.take, runScript_apply transport.recorded script hheld]
      rfl
  | copyFrom remote directory =>
    refine ⟨(transport.copyFrom port remote directory link).2, ⟨.copyFrom port remote directory,
      link.world, failureOf (transport.copyFrom port remote directory link).1⟩, rfl, ?_,
      fun before => ?_⟩
    · rw [Step.take, copyFrom_apply transport remote directory hheld]
      rfl
    · rw [Step.take, copyFrom_apply transport.recorded remote directory hheld]
      rfl

/-- Steps are one call each, in their order. -/
theorem takeAll_connected (transport : Transport δ) (steps : List Step) (port : String)
    (link : Link δ) :
    ∃ link' exchanges, exchanges.map Exchange.call = steps.map (Step.call port) ∧
      takeAll transport steps (connected port, link) = (connected port, link') ∧
      ∀ before, takeAll transport.recorded steps (connected port, recordedLink link before)
        = (connected port, recordedLink link' (before ++ exchanges)) := by
  induction steps generalizing link with
  | nil => exact ⟨link, [], rfl, rfl, fun before => by rw [List.append_nil]; rfl⟩
  | cons step steps ih =>
    obtain ⟨link₁, exchange, hcall, hstep, hrecorded⟩ := take_connected transport step port link
    obtain ⟨link', exchanges, hcalls, hsteps, hrecordeds⟩ := ih link₁
    refine ⟨link', exchange :: exchanges, ?_, ?_, fun before => ?_⟩
    · rw [List.map_cons, List.map_cons, hcall, hcalls]
    · rw [takeAll, List.foldl_cons, hstep, ← takeAll, hsteps]
    · rw [takeAll, List.foldl_cons, hrecorded, ← takeAll, hrecordeds, List.append_assoc,
        List.singleton_append]

/-- A connected session is closed by one call. -/
theorem shut_connected (transport : Transport δ) (port : String) (link : Link δ) :
    shut transport (connected port, link)
      = (disconnected port, (transport.disconnect port link).2) := by
  rw [shut, close_apply transport (rfl : (connected port).held)]
  rfl

/-- A session that is over is closed without a call. -/
theorem shut_disconnected (transport : Transport δ) (port : String) (link : Link δ) :
    shut transport (disconnected port, link) = (disconnected port, link) := rfl

/-- However a session is ended, its device is left by one call. -/
theorem ending_connected (transport : Transport δ) (ending : Ending) (port : String)
    (link : Link δ) :
    ending.take transport (connected port, link)
      = (disconnected port, (transport.disconnect port link).2) := by
  cases ending with
  | drop => exact shut_connected transport port link
  | disconnect => rw [Ending.take, shut_connected, shut_disconnected]

theorem ending_recorded (transport : Transport δ) (ending : Ending) (port : String)
    (link : Link δ) (before : List Exchange) :
    ending.take transport.recorded (connected port, recordedLink link before)
      = (disconnected port, recordedLink (transport.disconnect port link).2
          (before ++ [⟨.disconnect port, link.world,
            failureOf (transport.disconnect port link).1⟩])) := by
  rw [ending_connected]
  rfl

/-- If a device is connected to, the calls after that are one for each step and a last one that
leaves the device, whether they fail or not; otherwise there are none. Between the steps the session
is connected and holds the connection, and at the end it is neither. Recording the calls changes
nothing else. -/
theorem use_cases (transport : Transport δ) (port : String) (steps : List Step) (ending : Ending)
    (link : Link δ) :
    ∃ session? link' exchanges,
      use transport port steps ending link = (session?, link') ∧
      use transport.recorded port steps ending (recordedLink link [])
        = (session?, recordedLink link' exchanges) ∧
      match start transport port link with
      | (.error _, _) => session? = none ∧ exchanges.map Exchange.call = [.connect port]
      | (.ok session, link₁) =>
        exchanges.map Exchange.call
          = .connect port :: steps.map (Step.call port) ++ [.disconnect port] ∧
        (∀ n, (takeAll transport (steps.take n) (session, link₁)).1.state = .connected ∧
          (takeAll transport (steps.take n) (session, link₁)).1.held = true) ∧
        ∃ ended, session? = some ended ∧ ended.state = .disconnected ∧ ended.held = false := by
  rw [use, use, start_recorded, start_apply]
  rcases transport.connect port link with ⟨failure | _, link₁⟩
  · exact ⟨none, link₁, _, rfl, rfl, rfl, rfl⟩
  obtain ⟨link₂, exchanges, hcalls, hsteps, hrecorded⟩ :=
    takeAll_connected transport steps port link₁
  dsimp only [Except.map]
  rw [hsteps, hrecorded, ending_connected, ending_recorded]
  refine ⟨_, _, _, rfl, rfl, ?_, fun n => ?_, _, rfl, rfl, rfl⟩
  · rw [List.map_append, List.map_append, hcalls]
    rfl
  · obtain ⟨link', -, -, hdone, -⟩ := takeAll_connected transport (steps.take n) port link₁
    rw [hdone]
    exact ⟨rfl, rfl⟩

end Session

end StubManager
