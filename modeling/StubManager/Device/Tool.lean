import StubManager.Device.Session
import StubManager.FileTree.Temporary
import StubManager.Shell.Run
import StubManager.Text.Blank
import StubManager.Text.Split
import StubManager.Text.Utf8

/-!
# The transport by an external tool

`Tool.transport` talks to devices by running the tool `mpremote`, once for every step. What the
tool complains about is in `Tool.complaint`.
-/

namespace StubManager.Tool

open Shell

/-- The name of the tool. -/
def defaultProgram : String := "mpremote"

/-- The lines of a text; a line feed at the end starts no line, and a carriage return before a line
feed does not count. -/
def linesOf (bytes : ByteArray) : List (List Char) :=
  let lines := Text.lines (Utf8.decodeLossy bytes)
  if lines.getLast? = some [] then lines.dropLast else lines

/-- What a tool that failed complains about: the last line that is not blank of what it wrote, the
second stream before the first. Without any, how it ended. -/
def complaint (output : Output) : String :=
  let lines := (linesOf output.stderr ++ linesOf output.stdout).map Text.trim
  match lines.reverse.find? (!·.isEmpty) with
  | some line => String.ofList line
  | none => "mpremote exited with " ++ output.status.describe

/-- Runs the tool for a port. The answer is a reason if that fails. -/
def invoke {δ : Type} (program : Path) (port : String) (arguments : List String) :
    LinkAction δ (Except String Unit) := do
  let run : Action Failure (Except FileFault Output) :=
    ExceptT.lift (spawn program ("connect" :: port :: arguments)).run
  match ← LinkAction.onWorld run with
  | .error fault => return .error fault.message
  | .ok output =>
    return if output.status.isSuccess then .ok () else .error (complaint output)

/-- Runs the tool for a port, with a failure for the reason. -/
def require {δ : Type} (program : Path) (port : String) (arguments : List String)
    (failure : String → Failure) : LinkAction δ Unit := do
  match ← invoke program port arguments with
  | .ok () => return
  | .error reason => throw (failure reason)

/-- The last part of a path on the device. -/
def remoteName (remote : String) : String :=
  let trimmed := (remote.toList.reverse.dropWhile (· = '/')).reverse
  String.ofList ((Text.splitAt '/' trimmed).getLast?.getD [])

/-- Talks to devices by running the tool. -/
def transport {δ : Type} (program : Path) : Transport δ where
  connect port := require program port ["eval", "1"] (.deviceUnreachable port ·)
  runScript port script := require program port ["run", script.text] .scriptFailed
  copyFrom port remote directory := do
    LinkAction.onWorld (Files.stopping (Files.makeDirectories directory))
    require program port ["cp", "-r", ":" ++ remote, directory.text] (.deviceCopyFailed remote ·)
    return directory.join (remoteName remote)
  disconnect port := require program port ["soft-reset"] (.deviceUnreachable port ·)

end StubManager.Tool
