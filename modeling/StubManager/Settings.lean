import StubManager.Device.Tool
import StubManager.Failure
import StubManager.Path

/-!
# Settings

Where the registry, the catalog, the device tool and the extraction script are, as the environment
says. A variable without text counts as missing.
-/

namespace StubManager

/-- The variables of a run. -/
abbrev Environment := List (String × String)

/-- Where things are. -/
structure Settings where
  /-- The home of the registry. -/
  home : Path
  catalog : Path
  /-- The tool that talks to devices. -/
  tool : Path
  /-- The script that generates stubs on a device. -/
  script : Path
deriving DecidableEq, Repr, Inhabited

namespace Settings

/-- The text of a variable that has one. -/
def lookup? (environment : Environment) (name : String) : Option Path :=
  ((environment.lookup name).filter (· ≠ "")).map Path.mk

/-- The environment in which `HOME` is an account's home directory, unless it says otherwise. -/
def withAccountHome (home : String) (environment : Environment) : Environment :=
  if (lookup? environment "HOME").isSome then environment else ("HOME", home) :: environment

/-- Where programs keep the data of a user. -/
def dataDirectory? (environment : Environment) : Option Path :=
  (lookup? environment "XDG_DATA_HOME").filter Path.isAbsolute
    <|> (lookup? environment "HOME").map (·.join ".local/share")

/-- The settings that an environment amounts to. -/
def ofEnvironment (environment : Environment) : Except Failure Settings :=
  match lookup? environment "MPSTUBS_HOME"
      <|> (dataDirectory? environment).map (·.join "mpstubs") with
  | none => .error .homeUnknown
  | some home => .ok {
      home
      catalog := (lookup? environment "MPSTUBS_CATALOG").getD (home.join "catalog")
      tool := (lookup? environment "MPSTUBS_MPREMOTE").getD ⟨Tool.defaultProgram⟩
      script := (lookup? environment "MPSTUBS_CREATESTUBS").getD (home.join "createstubs.py") }

end Settings

end StubManager
