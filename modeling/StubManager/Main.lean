import Std.Time.DateTime.PlainDateTime
import Std.Time.DateTime.Timestamp
import StubManager.CommandLine.Run

/-!
# The command line

`main` carries out a run on the disk. What the run may see is brought into a `World`, the run takes
place there, and what it changed is brought back.
-/

namespace StubManager.Disk

/-! ## From the disk -/

/-- The variables that a run looks at. -/
def variableNames : List String :=
  ["HOME", "XDG_DATA_HOME", "MPSTUBS_HOME", "MPSTUBS_CATALOG", "MPSTUBS_MPREMOTE",
   "MPSTUBS_CREATESTUBS", "MPSTUBS_PROJECT"]

/-- The home directory of the account that the process belongs to. -/
def accountHome? : IO (Option String) := do
  try
    let status := (← IO.FS.lines "/proc/self/status").toList.map (·.splitOn "\t")
    let accounts := (← IO.FS.lines "/etc/passwd").toList.map (·.splitOn ":")
    return do
      let user ← status.findSome? fun fields =>
        if fields.head? = some "Uid:" then fields[1]? else none
      (← accounts.find? (·[2]? = some user))[5]?
  catch _ => return none

/-- The variables of the process. -/
def environment : IO Environment := do
  let found ← variableNames.filterMapM fun name => do
    return (← IO.getEnv name).map (name, ·)
  return match ← accountHome? with
    | some home => Settings.withAccountHome home found
    | none => found

/-- The time of day in UTC. -/
def now : IO Timestamp := do
  let wall := Std.Time.WallTime.ofNanoseconds
    (← Std.Time.Timestamp.now).toNanosecondsSinceUnixEpoch
  let t := Std.Time.PlainDateTime.ofWallTime wall
  return {
    year := t.date.year
    month := t.date.month.val.toNat
    day := t.date.day.val.toNat
    hour := t.time.hour.val.toNat
    minute := t.time.minute.val.toNat
    second := t.time.second.val.toNat
    nanosecond := t.time.nanosecond.val.toNat }

/-- Reads the file or, if `deep`, the directory at a path, links followed. -/
partial def readNode (deep executable : Bool) (p : Path) : IO (Option Node) := do
  try
    let place ← IO.FS.realPath p.text
    match (← place.metadata).type with
    | .file => return some (.file (← IO.FS.readBinFile place) executable)
    | .dir =>
      if !deep then return none
      let names := (← place.readDir).toList.map (·.fileName)
      let entries ← names.filterMapM fun name => do
        return (← readNode deep executable (p.join name)).map (name, ·)
      return some (.directory (entries.mergeSort fun a b => !(b.1 < a.1)))
    | _ => return none
  catch _ => return none

/-- Puts a node where a path leads, with the directories on the way. -/
def place (p : Path) (node : Node) : Files.FileAction Unit := do
  if let some parent := p.parent? then Files.makeDirectories parent
  match ← Files.orFault (·.locate false p) with
  | .vacant parent name _ => modify (·.put (parent ++ [name]) node)
  | .node names => modify (·.put names node)

/-- Brings what lies at a path into the world. -/
def fetch (deep executable : Bool) (w : World) (p : Path) : IO World := do
  match ← readNode deep executable p with
  | some node => return Files.quietly (place p node) w
  | none => return w

/-- Brings the project that a directory lies in into the world. -/
def fetchProject (w : World) (start : Path) : IO World := do
  let w := Files.quietly (Files.makeDirectories start) w
  let markers := start.ancestors.map (·.join Project.fileName)
  let w ← markers.foldlM (fetch false false) w
  match ((Project.discover start).run.run w).1 with
  | .ok (some project) => fetch false false w project.manifest.path
  | _ => return w

/-- Brings the part of the disk into the world that an invocation may see. -/
def fetchAll (settings : Settings) (invocation : Invocation) (w : World) : IO World := do
  let w ← match invocation.command with
    | .create _ _ script => do
      let w ← fetch false true w settings.tool
      fetch false false w ((script.map Path.mk).getD settings.script)
    | .add name _ => [settings.catalog, ⟨name⟩].foldlM (fetch true false) w
    | _ => pure w
  fetch true false w settings.home

/-- The world that an invocation starts in. -/
def load (environment : Environment) (invocation : Invocation) : IO World := do
  let here : Path := ⟨(← IO.currentDir).toString⟩
  let cwd := (Text.splitAt '/' here.text.toList).filterMap fun part =>
    if part.isEmpty then none else some (String.ofList part)
  let w : World := { root := .directory [], cwd, tempDir := ⟨"/tmp"⟩, clock := ← now }
  let w := Files.quietly (Files.makeDirectories here) w
  let w ← match Settings.ofEnvironment environment with
    | .ok settings => fetchAll settings invocation w
    | .error _ => pure w
  let start := match invocation.project with
    | some directory => here.join directory
    | none => here
  let w ← fetchProject w start
  return Files.quietly (Files.makeDirectories w.tempDir) w

/-! ## To the disk -/

/-- What a tree holds, by path. -/
def contents (w : World) : List (String × Node) :=
  w.root.descendants.map fun (names, node) => ("/" ++ "/".intercalate names, node)

/-- Whether one node may stand for another on the disk; what directories hold is not looked at. -/
def sameNode : Node → Node → Bool
  | .directory _, .directory _ => true
  | .file a _, .file b _ => a == b
  | .link a, .link b => a == b
  | _, _ => false

/-- Takes a node off the disk. -/
def remove (p : String) : Node → IO Unit
  | .directory _ => IO.FS.removeDir p
  | _ => IO.FS.removeFile p

/-- Puts a node on the disk. -/
def write (p : String) : Node → IO Unit
  | .directory _ => IO.FS.createDirAll p
  | .file data _ => IO.FS.writeBinFile p data
  | .link target => do IO.FS.writeBinFile p (← IO.FS.readBinFile target)

/-- Brings to the disk what makes one world out of another. Directories are removed after what they
held and made before what they hold. -/
def store (before after : World) : IO Unit := do
  let old := contents before
  let new := contents after
  for (p, node) in old.reverse do
    unless (new.lookup p).any (·.isDirectory == node.isDirectory) do remove p node
  for (p, node) in new do
    unless (old.lookup p).any (sameNode node) do write p node

end StubManager.Disk

open StubManager in
/-- Carries out a run. -/
def main (arguments : List String) : IO UInt32 := do
  let environment ← Disk.environment
  match Invocation.parse environment arguments with
  | .error error =>
    let stream ← if error.exitCode = 0 then IO.getStdout else IO.getStderr
    stream.putStr (Report.usage error)
    return UInt32.ofNat error.exitCode
  | .ok invocation =>
    let before ← Disk.load environment invocation
    let (result, after) := invocation.run environment before
    Disk.store before after
    IO.print result.output
    if let some warning := result.warning then IO.eprintln ("Warning: " ++ warning.message)
    match result.failure with
    | some failure =>
      IO.eprintln ("Error: " ++ failure.message)
      return 1
    | none => return 0
