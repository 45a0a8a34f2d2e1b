import StubManager.FileTree.Temporary

/-!
# Transactions

A `Transaction` remembers files and directories before they are changed: the contents of a file, a
directory moved aside, a directory that was not there. `Transaction.rollback` brings all of it back
and `Transaction.commit` gives it up. Faults of the bringing back do not matter.
-/

namespace StubManager

/-- A file as it was; without contents it was not there. -/
structure FileBackup where
  path : Path
  contents : Option ByteArray

/-- A directory and where it was moved to. -/
structure DirectoryBackup where
  path : Path
  preserved : Path
deriving DecidableEq, Repr

/-- What was there before the changes. -/
structure Transaction where
  files : List FileBackup := []
  directories : List DirectoryBackup := []
  /-- Directories that are made by the changes. -/
  created : List Path := []

namespace Transaction

/-- Remembers a file. The first contents of a path count. -/
def backupFile (t : Transaction) (p : Path) : Action Failure Transaction := do
  if t.files.any (·.path.same p) then return t
  if ← Files.ask (·.exists? p) then
    let data ← (Files.read p).adapt fun fault => .readFailed p.text fault.message
    return { t with files := t.files ++ [{ path := p, contents := some data }] }
  else return { t with files := t.files ++ [{ path := p, contents := none }] }

/-- Remembers that a directory is made by the changes. -/
def track (t : Transaction) (p : Path) : Transaction :=
  if t.created.any (·.same p) then t else { t with created := t.created ++ [p] }

/-- Where a directory is moved to. -/
def preservedPath (p : Path) : Path := p.withFileName (".previous-" ++ p.fileName?.getD "")

/-- Moves a directory aside. One that is not there is made by the changes. -/
def backupDirectory (t : Transaction) (p : Path) : Action Failure Transaction := do
  if t.directories.any (·.path.same p) then return t
  if !(← Files.ask (·.isDirectory p)) then return t.track p
  let preserved := preservedPath p
  (Files.moveOver p preserved).adapt fun fault => .writeFailed p.text fault.message
  return { t with directories := t.directories ++ [{ path := p, preserved }] }

/-- Gives up what was remembered. -/
def commit (t : Transaction) (w : World) : World :=
  t.directories.foldl (fun w backup => Files.quietly (Files.removeTree backup.preserved) w) w

/-- Brings a file back. -/
def restoreFile (w : World) (backup : FileBackup) : World :=
  match backup.contents with
  | some data => Files.quietly (Files.write backup.path data) w
  | none =>
    if w.exists? backup.path then Files.quietly (Files.removeFile backup.path) w else w

/-- Removes a directory that the changes made. -/
def removeCreated (w : World) (p : Path) : World :=
  if w.isDirectory p then Files.quietly (Files.removeTree p) w else w

/-- Brings a directory back in the place of what is there now. -/
def restoreDirectory (w : World) (backup : DirectoryBackup) : World :=
  Files.quietly (Files.moveOver backup.preserved backup.path) w

/-- Directories that the changes made, deeper ones first. -/
def createdInOrder (t : Transaction) : List Path :=
  t.created.mergeSort fun p q => q.components.length ≤ p.components.length

/-- Brings back what was remembered. -/
def rollback (t : Transaction) (w : World) : World :=
  let w := t.files.foldl restoreFile w
  let w := t.createdInOrder.foldl removeCreated w
  t.directories.foldl restoreDirectory w

/-- Something to remember. -/
inductive Target where
  | file (path : Path)
  | directory (path : Path)
deriving DecidableEq, Repr

/-- Remembers one more target. -/
def backup (t : Transaction) : Target → Action Failure Transaction
  | .file p => t.backupFile p
  | .directory p => t.backupDirectory p

/-- Remembers targets one after the other. What was remembered is brought back if one fails. -/
def begin (t : Transaction) : List Target → Action Failure Transaction
  | [] => return t
  | target :: more => do
    let next ←
      try t.backup target
      catch failure =>
        modify t.rollback
        throw failure
    next.begin more

end Transaction

end StubManager
