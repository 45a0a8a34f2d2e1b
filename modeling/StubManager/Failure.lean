/-!
# Failures

Why an operation of the stub manager stops. `Failure.message` is the sentence shown to the user,
`Failure.code` the stable name of the cause and `Failure.help?` an optional hint.
-/

namespace StubManager

/-- The causes for which an operation stops. -/
inductive Failure where
  /-- No list is assigned to `anchor` in the text called `artifact`. -/
  | anchorMissing (anchor artifact : String)
  /-- The list exists but cannot be read. -/
  | listMalformed (artifact reason : String)
  /-- One change adds and removes the same name. -/
  | contradictoryChange (name : String)
  /-- Neither a directory nor a catalog entry goes by this name. -/
  | stubUnknown (name : String)
  /-- The staged directory is not an acceptable stub. -/
  | stubUnverified (name reason : String)
  /-- The registry has no record of this name. -/
  | notInstalled (name : String)
  /-- A configuration file is not in the expected form. -/
  | configUnreadable (path : String)
  /-- Nothing tells where the registry lives. -/
  | homeUnknown
  /-- The device on `port` does not answer. -/
  | deviceUnreachable (port reason : String)
  /-- The extraction script stopped on the device. -/
  | scriptFailed (message : String)
  /-- A directory of the device could not be copied. -/
  | deviceCopyFailed (remote reason : String)
  /-- A file could not be read. -/
  | readFailed (path reason : String)
  /-- A file could not be replaced. -/
  | writeFailed (path reason : String)
  /-- Any other fault of the file system. -/
  | fileSystem (message : String)
deriving DecidableEq, Repr, Inhabited

namespace Failure

/-- The sentence shown to the user. -/
def message : Failure → String
  | anchorMissing anchor artifact => "No list assigned to '" ++ anchor ++ "' found in " ++ artifact
  | listMalformed artifact reason => "Malformed list in " ++ artifact ++ ": " ++ reason
  | contradictoryChange name =>
    "Stub '" ++ name ++ "' is both added and removed in the same change"
  | stubUnknown name => "Stub '" ++ name ++ "' not found"
  | stubUnverified name reason => "Stub '" ++ name ++ "' failed verification: " ++ reason
  | notInstalled name => "Stub '" ++ name ++ "' is not installed"
  | configUnreadable path => "Failed to parse configuration file: " ++ path
  | homeUnknown => "Could not determine data directory for the stub registry"
  | deviceUnreachable port reason => "Could not connect to device on " ++ port ++ ": " ++ reason
  | scriptFailed message => "Stub extraction script failed on device: " ++ message
  | deviceCopyFailed remote reason =>
    "Failed to copy '" ++ remote ++ "' from device: " ++ reason
  | readFailed path _ => "Failed to read file: " ++ path
  | writeFailed path _ => "Failed to write file: " ++ path
  | fileSystem message => "IO error: " ++ message

/-- The stable name of the cause. -/
def code : Failure → String
  | anchorMissing .. => "mpstubs::manifest::anchor_not_found"
  | listMalformed .. => "mpstubs::manifest::malformed"
  | contradictoryChange .. => "mpstubs::manifest::contradictory_change"
  | stubUnknown .. => "mpstubs::source::not_found"
  | stubUnverified .. => "mpstubs::source::verification_failed"
  | notInstalled .. => "mpstubs::registry::not_installed"
  | configUnreadable .. => "mpstubs::config::parse_failed"
  | homeUnknown => "mpstubs::config::no_home"
  | deviceUnreachable .. => "mpstubs::device::connection"
  | scriptFailed .. => "mpstubs::device::script_failed"
  | deviceCopyFailed .. => "mpstubs::device::copy_failed"
  | readFailed .. => "mpstubs::fs::read_failed"
  | writeFailed .. => "mpstubs::fs::write_failed"
  | fileSystem .. => "mpstubs::fs::io_error"

/-- What the user can do about it, where there is something to do. -/
def help? : Failure → Option String
  | anchorMissing anchor _ =>
    some ("The manifest needs a list literal such as `" ++ anchor ++ " = []` or `\"" ++ anchor
      ++ "\": []`")
  | stubUnknown .. => some "Pass a path to a stub directory or a name listed in the catalog"
  | notInstalled .. => some "Run 'mpstubs list' to see installed stubs"
  | homeUnknown => some "Set MPSTUBS_HOME to choose a registry location"
  | deviceUnreachable .. =>
    some "Check that the board is plugged in and no other program holds the port"
  | _ => none

/-- A device that cannot be reached is reported and passed over; all other causes stop a run. -/
def isUnreachable : Failure → Bool
  | deviceUnreachable .. => true
  | _ => false

end Failure

end StubManager
