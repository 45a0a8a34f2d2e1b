import StubManager.Device.Session
import StubManager.Installation.Change

/-!
# Taking stubs from a device

`Extraction.run` runs a script on a device that generates stubs, copies them from the device and
installs them. A list of modules in the script can be extended before; the script file itself stays
as it is.
-/

namespace StubManager

/-- What to extract from which device. -/
structure ExtractionRequest where
  port : String
  /-- The script that generates the stubs. -/
  script : Path
  /-- Modules to add to the list in the script; without them the script runs as it is. -/
  modules : Option (List String) := none
deriving DecidableEq, Repr, Inhabited

/-- What an extraction came to. -/
inductive Extracted where
  | installed (added : Added)
  /-- The device could not be reached, which is no failure. -/
  | unreachable (failure : Failure)
deriving Repr, Inhabited

namespace Extraction

/-- Work at a site and with a device. -/
abbrev DeviceWork (δ α : Type) := ExceptT Failure (StateM (Site × δ)) α

variable {δ α : Type}

/-- Work that leaves the device alone. -/
def onSite (work : Work α) : DeviceWork δ α := fun (site, device) =>
  let (result, site) := work site
  (result, (site, device))

/-- Work that leaves the records alone. -/
def onLink (action : LinkAction δ α) : DeviceWork δ α := fun (site, device) =>
  let (result, link) := action { world := site.world, device }
  (result, ({ site with world := link.world }, link.device))

/-- Work that leaves the records and the device alone. -/
def onWorld (action : Action Failure α) : DeviceWork δ α := onSite (Work.onWorld action)

/-- Work that is followed by a change of the world, however it ends. -/
def andFinally (body : DeviceWork δ α) (cleanup : World → World) : DeviceWork δ α := fun state =>
  let (result, (site, device)) := body state
  (result, ({ site with world := cleanup site.world }, device))

/-- The directory where the script puts the stubs on the device. -/
def deviceDirectory : String := "/stubs"

/-- What the list of modules is assigned to in the script. -/
def modulesAnchor : String := "modules"

/-- What a script file without a name is called. -/
def defaultScriptName : String := "createstubs.py"

/-- The script to run: the file itself, or a copy in the working directory with the modules in its
list. -/
def stageScript (request : ExtractionRequest) (workdir : Path) : Action Failure Path := do
  match ChangeSet.ofRequest? request.modules with
  | none =>
    if ← Files.ask (·.isFile request.script) then return request.script
    else throw (.readFailed request.script.text "script not found")
  | some change =>
    let artifact ← Artifact.load request.script modulesAnchor
    let edited ← MonadExcept.ofExcept (artifact.apply change)
    let staged := workdir.join (request.script.fileName?.getD defaultScriptName)
    edited.save staged
    return staged

/-- Runs the script and copies what it generated. -/
def generate (transport : Transport δ) (script workdir : Path) : SessionAction δ Path := do
  Session.runScript transport script
  let copy ← Session.copyFrom transport deviceDirectory (workdir.join "device")
  Session.close transport
  return copy

/-- Stages the stubs that were copied from the device on a port. -/
def stageGenerated (port : String) (directory : Path) : Action Failure Bundle := do
  let metadata ← (Metadata.load directory).adapt fun failure =>
    .stubUnverified port failure.message
  Bundle.stage { name := some metadata.deviceName, directory, origin := "device:" ++ port }

/-- Installs the stubs that were copied from the device on a port, in place of older ones. -/
def installGenerated (store : Store) (manifest : Option Manifest) (port : String)
    (directory : Path) : Work Added := do
  let bundle ← (stageGenerated port directory : Action Failure Bundle)
  (Installation.register store manifest bundle true).andFinally (Bundle.discard bundle.staging)

/-- The extraction with a working directory that is there already. -/
def runIn (workdir : Path) (transport : Transport δ) (store : Store) (manifest : Option Manifest)
    (request : ExtractionRequest) : DeviceWork δ Extracted := do
  let script ← onWorld (stageScript request workdir)
  match ← ExceptT.lift (onLink (Session.start transport request.port)).run with
  | .error failure =>
    if failure.isUnreachable then return .unreachable failure else throw failure
  | .ok session =>
    let directory ← onLink (session.conduct transport (generate transport script workdir))
    return .installed (← onSite (installGenerated store manifest request.port directory))

/-- Takes stubs from a device and installs them. -/
def run (transport : Transport δ) (store : Store) (manifest : Option Manifest)
    (request : ExtractionRequest) : DeviceWork δ Extracted := do
  let workdir ← onWorld (Files.makeTemporary "mpstubs-create-")
  andFinally (runIn workdir transport store manifest request)
    (Files.quietly (Files.removeTree workdir))

end Extraction

end StubManager
