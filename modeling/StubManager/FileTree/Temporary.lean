import StubManager.Failure
import StubManager.FileTree.Operations

/-!
# Temporary directories and reports of faults

File operations inside of larger ones: a fault that stops the run, a fault that does not matter,
and directories that are there for the time of an operation.
-/

namespace StubManager.Files

/-- A file operation whose fault stops the run. -/
def stopping {α : Type} (action : FileAction α) : Action Failure α :=
  action.adapt fun fault => .fileSystem fault.message

/-- The world after an operation whose fault does not matter. -/
def quietly (action : FileAction Unit) (w : World) : World := (action.run.run w).2

/-- An operation whose fault does not matter. -/
def passing (action : FileAction Unit) : Action Failure Unit := modify (quietly action)

/-- Makes a directory for temporary files whose name starts with `stem`. -/
def makeTemporary (stem : String) : Action Failure Path := do
  let directory ← ask (·.tempDir)
  match ← ask (freeName? directory stem) with
  | none => throw (failure .alreadyExists directory)
  | some name =>
    let p := directory.join name
    (makeDirectory p).adapt (failure · p)
    return p
where
  /-- The failure of a fault with its path. -/
  failure (fault : FileFault) (p : Path) : Failure :=
    .fileSystem (fault.message ++ " at path \"" ++ p.text ++ "\"")

/-- The time, which goes on with every reading. -/
def now : Action Failure Timestamp := do
  let time ← ask (·.clock)
  modify fun w => { w with clock := time.tick }
  return time

end StubManager.Files
