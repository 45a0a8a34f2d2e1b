import StubManager.Failure
import StubManager.Path
import StubManager.Registry.Record

/-!
# Registries

A registry is the list of what is installed below a home directory, in the order of installation.
Names are unique: `upsert` replaces a record in its place. Records can be listed by family, for all
stubs (`groups`) or for given names (`families` and `ofFamily`).
-/

namespace StubManager

/-- The records of the stubs below a home directory. -/
structure Registry where
  home : Path
  records : List Record := []
deriving DecidableEq, Repr, Inhabited

/-- What putting a stub in place or taking it away changes. -/
structure Footprint where
  files : List Path
  directory : Path
deriving DecidableEq, Repr, Inhabited

namespace Registry

/-- The file that holds the records. -/
def fileName : String := "registry.yaml"

/-- The directory that holds the stubs. -/
def stubsName : String := "stubs"

/-- The file that holds the records. -/
def indexPath (registry : Registry) : Path := registry.home.join fileName

/-- The record of a name. -/
def find? (registry : Registry) (name : String) : Option Record :=
  registry.records.find? (·.name = name)

/-- The registry with a record in the place of the one of its name, or at the end. -/
def upsert (registry : Registry) (record : Record) : Registry :=
  if registry.records.any (·.name = record.name) then
    { registry with records := replaceFirst registry.records }
  else { registry with records := registry.records ++ [record] }
where
  /-- The records with the first one of the name replaced. -/
  replaceFirst : List Record → List Record
    | [] => []
    | other :: more =>
      if other.name = record.name then record :: more else other :: replaceFirst more

/-- The registry without the first record of a name. -/
def erase (registry : Registry) (name : String) : Registry :=
  { registry with records := registry.records.eraseP (·.name = name) }

/-- A name in the form that directories are called by. -/
def directoryName (name : String) : String :=
  name.map fun c => if c = '/' || c = '\\' || c = ':' then '_' else c

/-- Where a stub is installed: in a directory of its own below the stubs. -/
def directory (registry : Registry) (name : String) : Except Failure Path :=
  match (Path.mk (directoryName name)).plainName? with
  | some part => .ok ((registry.home.join stubsName).join part)
  | none => .error (.stubUnverified name "name cannot be used as an install directory")

/-- What installing or removing a stub changes. -/
def footprint (registry : Registry) (name : String) : Except Failure Footprint :=
  (registry.directory name).map fun directory => { files := [registry.indexPath], directory }

/-! ## Families -/

/-- The records by family, families in order and records in the order of installation. -/
abbrev Groups := List (String × List Record)

/-- The groups with one more record. -/
def addToGroup (record : Record) : Groups → Groups
  | [] => [(record.firmware, [record])]
  | (family, records) :: more =>
    if family = record.firmware then (family, records ++ [record]) :: more
    else if record.firmware < family then (record.firmware, [record]) :: (family, records) :: more
    else (family, records) :: addToGroup record more

/-- All records by family. -/
def groups (registry : Registry) : Groups :=
  registry.records.foldl (fun groups record => addToGroup record groups) []

/-- An ascending list with one more member. -/
def insertName (name : String) : List String → List String
  | [] => [name]
  | other :: more =>
    if other = name then other :: more
    else if name < other then name :: other :: more
    else other :: insertName name more

/-- The families of the records that go by the given names, in order. -/
def families (registry : Registry) (names : List String) : List String :=
  (registry.records.filter fun record => names.contains record.name).foldl
    (fun families record => insertName record.firmware families) []

/-- The records of one family that go by the given names. -/
def ofFamily (registry : Registry) (family : String) (names : List String) : List Record :=
  registry.records.filter fun record => record.firmware = family && names.contains record.name

end Registry

end StubManager
