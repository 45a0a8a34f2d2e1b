import StubManager.Failure
import StubManager.FileTree.Operations

/-!
# Device sessions

A `Transport` is a way to talk to devices, and a `Session` is one conversation: it is opened, runs
scripts and copies directories, and is closed once. `Session.conduct` closes it also after a
failure. Whatever a transport keeps about its devices is a value of the type `δ`.
-/

namespace StubManager

/-- The world together with what a transport keeps about its devices. -/
structure Link (δ : Type) where
  world : World
  device : δ

/-- What talking to a device does, stopping at the first failure. -/
abbrev LinkAction (δ α : Type) := ExceptT Failure (StateM (Link δ)) α

/-- A step that has nothing to do with devices. -/
def LinkAction.onWorld {δ α : Type} (action : Action Failure α) : LinkAction δ α := fun link =>
  let (result, world) := action link.world
  (result, { link with world })

/-- A way to talk to the devices on ports. -/
structure Transport (δ : Type) where
  connect : (port : String) → LinkAction δ Unit
  /-- Runs a script file on the device. -/
  runScript : (port : String) → (script : Path) → LinkAction δ Unit
  /-- Copies a directory of the device into a local one; the answer is where the copy lies. -/
  copyFrom : (port remote : String) → (directory : Path) → LinkAction δ Path
  disconnect : (port : String) → LinkAction δ Unit

/-- What a session is doing. -/
inductive SessionState where
  | disconnected
  | connected
  | scriptRunning
deriving DecidableEq, Repr, Inhabited

/-- A conversation with the device on a port. -/
structure Session where
  port : String
  /-- Whether the connection is still held. -/
  held : Bool
  state : SessionState
deriving DecidableEq, Repr, Inhabited

/-- A step of a session. -/
abbrev SessionAction (δ α : Type) := ExceptT Failure (StateT Session (StateM (Link δ))) α

namespace Session

variable {δ α : Type}

/-- A step of the transport within a session. -/
def lift (action : LinkAction δ α) : SessionAction δ α := fun session link =>
  let (result, link) := action link
  ((result, session), link)

/-- The port of the connection, as long as that is held. -/
def connection : SessionAction δ String := do
  let session ← getThe Session
  if session.held then return session.port
  else throw (.deviceUnreachable session.port "session already closed")

private def setState (state : SessionState) : SessionAction δ Unit :=
  modifyThe Session fun session => { session with state }

/-- Starts a session. -/
def start (transport : Transport δ) (port : String) : LinkAction δ Session := do
  transport.connect port
  return { port, held := true, state := .connected }

/-- Runs a script on the device. However the script ends, the session is connected again. -/
def runScript (transport : Transport δ) (script : Path) : SessionAction δ Unit := do
  setState .scriptRunning
  let port ← connection
  tryCatch (lift (transport.runScript port script)) fun failure => do
    setState .connected
    throw failure
  setState .connected

/-- Copies a directory of the device into a local one. -/
def copyFrom (transport : Transport δ) (remote : String) (directory : Path) :
    SessionAction δ Path := do
  lift (transport.copyFrom (← connection) remote directory)

/-- Ends the session; nothing happens if it is ended already. -/
def close (transport : Transport δ) : SessionAction δ Unit := do
  let session ← getThe Session
  if session.held then
    set { session with held := false, state := .disconnected }
    lift (transport.disconnect session.port)

/-- Ends the session without regard to failures. -/
def drop (transport : Transport δ) (session : Session) (link : Link δ) : Link δ :=
  (close transport session link).2

/-- The steps of a session, which is ended afterwards in any case. -/
def conduct (transport : Transport δ) (session : Session) (body : SessionAction δ α) :
    LinkAction δ α := fun link =>
  let ((result, session), link) := body session link
  (result, drop transport session link)

end Session

end StubManager
