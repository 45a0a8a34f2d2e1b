import StubManager.Proofs.Device.Session

/-!
# Recorded conversations

`Transport.recorded` is a transport that also records its calls. A conversation with it takes one of
three courses (`Conversation`), in each of which the device is left exactly once, and it succeeds if
and only if all its calls do (`Extraction.conduct_cases`).
-/

namespace StubManager

variable {δ α : Type}

/-! ## Conversations -/

namespace Extraction

/-- The conversation with a device, call by call. -/
theorem conduct_generate (transport : Transport δ) (port : String) (script workdir : Path)
    (link : Link δ) :
    Session.conduct transport { port, held := true, state := .connected }
        (generate transport script workdir) link =
      match transport.runScript port script link with
      | (.error failure, link) => (.error failure, (transport.disconnect port link).2)
      | (.ok (), link) =>
        match transport.copyFrom port deviceDirectory (workdir.join "device") link with
        | (.error failure, link) => (.error failure, (transport.disconnect port link).2)
        | (.ok copy, link) =>
          ((transport.disconnect port link).1.map fun _ => copy,
            (transport.disconnect port link).2) := by
  have hheld : Session.held { port, held := true, state := .connected } := rfl
  rw [Session.conduct, generate, Session.bind_apply, Session.runScript_apply transport script hheld]
  rcases transport.runScript port script link with ⟨failure | _, link₁⟩
  · dsimp only
    rw [Session.drop_of_held transport hheld]
  dsimp only
  rw [Session.bind_apply, Session.copyFrom_apply transport _ _ hheld]
  rcases transport.copyFrom port deviceDirectory (workdir.join "device") link₁
    with ⟨failure | copy, link₂⟩
  · dsimp only
    rw [Session.drop_of_held transport hheld]
  dsimp only
  rw [Session.bind_apply, Session.close_apply transport hheld]
  rcases transport.disconnect port link₂ with ⟨failure | _, link₃⟩
  · dsimp only
    rw [Session.drop_of_not_held transport rfl]
    rfl
  · exact congrArg _ (Session.drop_of_not_held transport rfl link₃)

end Extraction

/-! ## Recorded calls -/

/-- A call of a transport. -/
inductive Call where
  | connect (port : String)
  | runScript (port : String) (script : Path)
  | copyFrom (port remote : String) (directory : Path)
  | disconnect (port : String)
deriving DecidableEq, Repr

/-- A call with the world it was made in, and why it failed if it did. -/
structure Exchange where
  call : Call
  world : World
  failure? : Option Failure

/-- The calls of a conversation with their failures. -/
def calls (exchanges : List Exchange) : List (Call × Option Failure) :=
  exchanges.map fun exchange => (exchange.call, exchange.failure?)

/-- Why something failed, if it did. -/
def failureOf (result : Except Failure α) : Option Failure :=
  match result with
  | .error failure => some failure
  | .ok _ => none

namespace Transport

/-- A step of a transport that is recorded. -/
def recording (call : Call) (action : LinkAction δ α) : LinkAction (δ × List Exchange) α :=
  fun link =>
    let (result, after) := action { world := link.world, device := link.device.1 }
    (result,
      { world := after.world
        device := (after.device,
          link.device.2 ++ [{ call, world := link.world, failure? := failureOf result }]) })

theorem recording_apply (call : Call) (action : LinkAction δ α) (link : Link δ)
    (before : List Exchange) :
    recording call action { world := link.world, device := (link.device, before) }
      = ((action link).1,
        { world := (action link).2.world
          device := ((action link).2.device,
            before ++ [{ call, world := link.world, failure? := failureOf (action link).1 }]) }) :=
  rfl

/-- A transport that records its calls. -/
def recorded (transport : Transport δ) : Transport (δ × List Exchange) where
  connect port := recording (.connect port) (transport.connect port)
  runScript port script := recording (.runScript port script) (transport.runScript port script)
  copyFrom port remote directory :=
    recording (.copyFrom port remote directory) (transport.copyFrom port remote directory)
  disconnect port := recording (.disconnect port) (transport.disconnect port)

theorem recorded_connect (transport : Transport δ) (port : String) (w : World) (device : δ)
    (before : List Exchange) :
    transport.recorded.connect port { world := w, device := (device, before) }
      = ((transport.connect port { world := w, device }).1,
        { world := (transport.connect port { world := w, device }).2.world
          device := ((transport.connect port { world := w, device }).2.device,
            before ++ [{
              call := .connect port
              world := w
              failure? := failureOf (transport.connect port { world := w, device }).1 }]) }) :=
  rfl

end Transport

/-- The calls of a conversation that was begun, up to its end. -/
inductive Conversation (port : String) (script directory : Path) :
    List (Call × Option Failure) → Prop where
  | scriptFailed (failure : Failure) (ending : Option Failure) :
    Conversation port script directory
      [(.runScript port script, some failure), (.disconnect port, ending)]
  | copyFailed (failure : Failure) (ending : Option Failure) :
    Conversation port script directory
      [(.runScript port script, none),
        (.copyFrom port Extraction.deviceDirectory directory, some failure),
        (.disconnect port, ending)]
  | copied (ending : Option Failure) :
    Conversation port script directory
      [(.runScript port script, none), (.copyFrom port Extraction.deviceDirectory directory, none),
        (.disconnect port, ending)]

/-- Whether calls to run a script, to copy and to disconnect succeeded. -/
def Succeeded (port : String) (calls : List (Call × Option Failure)) : Prop :=
  ∃ script directory, (.runScript port script, none) ∈ calls ∧
    (.copyFrom port Extraction.deviceDirectory directory, none) ∈ calls ∧
    (.disconnect port, none) ∈ calls

namespace Extraction

/-- A conversation takes one of three courses, and fails unless all its calls succeed. -/
theorem conduct_cases (transport : Transport δ) (port : String) (script workdir : Path)
    (link : Link δ) :
    ∃ result link' exchanges,
      Session.conduct transport { port, held := true, state := .connected }
          (generate transport script workdir) link = (result, link') ∧
      (∀ before, Session.conduct transport.recorded { port, held := true, state := .connected }
          (generate transport.recorded script workdir)
          { world := link.world, device := (link.device, before) }
        = (result, { world := link'.world, device := (link'.device, before ++ exchanges) })) ∧
      Conversation port script (workdir.join "device") (calls exchanges) ∧
      ((∃ copy, result = .ok copy) ↔ Succeeded port (calls exchanges)) := by
  simp only [conduct_generate, Transport.recorded, Transport.recording_apply]
  rcases transport.runScript port script link with ⟨failure | _, link₁⟩
  · refine ⟨_, _, [⟨_, link.world, some failure⟩,
      ⟨_, link₁.world, failureOf (transport.disconnect port link₁).1⟩], rfl, fun before => ?_,
      .scriptFailed failure _, ?_⟩
    · simp only [Transport.recording_apply, failureOf, List.append_assoc, List.cons_append,
        List.nil_append]
    · simp [Succeeded, calls]
  simp only [Transport.recording_apply]
  rcases transport.copyFrom port deviceDirectory (workdir.join "device") link₁
    with ⟨failure | copy, link₂⟩
  · refine ⟨_, _, [⟨_, link.world, none⟩, ⟨_, link₁.world, some failure⟩,
      ⟨_, link₂.world, failureOf (transport.disconnect port link₂).1⟩], rfl, fun before => ?_,
      .copyFailed failure _, ?_⟩
    · simp only [Transport.recording_apply, failureOf, List.append_assoc, List.cons_append,
        List.nil_append]
    · simp [Succeeded, calls]
  · refine ⟨_, _, [⟨_, link.world, none⟩, ⟨_, link₁.world, none⟩,
      ⟨_, link₂.world, failureOf (transport.disconnect port link₂).1⟩], rfl, fun before => ?_,
      .copied _, ?_⟩
    · simp only [Transport.recording_apply, failureOf, List.append_assoc, List.cons_append,
        List.nil_append]
    · rcases transport.disconnect port link₂ with ⟨failure | _, link₃⟩
      · simp [Succeeded, calls, failureOf, Except.map]
      · simp [Succeeded, calls, failureOf, Except.map]
end Extraction

end StubManager
