import StubManager.Catalog
import StubManager.Digest.Directory
import StubManager.FileTree.Temporary
import StubManager.Metadata
import StubManager.Registry.Record

/-!
# Staged stubs

A `Bundle` is a private copy of a stub directory that was found acceptable: it has metadata, a name
that can be used, and the digest that was asked for. The copy lies in a temporary directory and is
removed when the work with it is done (`Bundle.discard`).
-/

namespace StubManager

/-- A verified copy of a stub directory. -/
structure Bundle where
  name : String
  /-- Where the stub came from. -/
  origin : String
  /-- The temporary directory around the copy. -/
  staging : Path
  metadata : Metadata
deriving DecidableEq, Repr, Inhabited

/-- What is to be staged. -/
structure StubSource where
  /-- The name the stub is to have; without one it has its own. -/
  name : Option String := none
  directory : Path
  origin : String
  /-- The digest the stub has to have. -/
  hash : Option String := none
deriving DecidableEq, Repr, Inhabited

namespace Bundle

/-- The directory that holds the copy. -/
def path (bundle : Bundle) : Path := bundle.staging.join "stub"

/-- Whether a name is one plain part of a path. -/
def isValidName (name : String) : Bool := (Path.mk name).plainName?.isSome

/-- Refuses a name that is not one plain part of a path. -/
def checkName (label name : String) : Except Failure Unit :=
  if isValidName name then .ok ()
  else .error (.stubUnverified label ("'" ++ name ++ "' is not a valid stub name"))

/-- Refuses a copy whose digest is not the one asked for. -/
def checkDigest (label : String) (copy : Path) : Option String → Action Failure Unit
  | none => return
  | some expected => do
    let actual ← Digest.ofDirectory copy
    unless Digest.agree expected actual do
      throw (.stubUnverified label
        ("hash mismatch (expected " ++ expected ++ ", got " ++ actual ++ ")"))

/-- Copies a stub below a temporary directory and verifies the copy. -/
def fill (source : StubSource) (staging : Path) : Action Failure Bundle := do
  let label := source.name.getD source.origin
  let copy := staging.join "stub"
  Files.stopping (Files.copyTree Files.caches source.directory copy)
  let metadata ← (Metadata.load copy).adapt fun failure => .stubUnverified label failure.message
  checkDigest label copy source.hash
  match source.name <|> metadata.name <|> source.directory.fileName? with
  | none => throw (.stubUnverified label "stub directory has no name")
  | some name => do
    MonadExcept.ofExcept (checkName label name)
    return { name, origin := source.origin, staging, metadata }

/-- Removes the copy. -/
def discard (staging : Path) : World → World := Files.quietly (Files.removeTree staging)

/-- Stages a stub. Nothing stays if the stub is not acceptable. -/
def stage (source : StubSource) : Action Failure Bundle := do
  let label := source.name.getD source.origin
  match source.name with
  | some name => MonadExcept.ofExcept (checkName label name)
  | none => pure ()
  let staging ← Files.makeTemporary "mpstubs-stage-"
  try fill source staging
  catch failure =>
    modify (discard staging)
    throw failure

/-- What a directory or a name of the catalog stands for. A directory comes first. -/
def sourceOf (catalogRoot : Path) (identifier : String) : Action Failure StubSource := do
  let place : Path := ⟨identifier⟩
  if ← Files.ask (·.isDirectory place) then
    let directory ← Files.stopping (Files.canonical place)
    return { directory, origin := directory.text }
  let catalog ← Catalog.load catalogRoot
  match catalog.find? identifier with
  | none => throw (.stubUnknown identifier)
  | some entry =>
    let directory := catalog.location entry
    if ← Files.ask (·.isDirectory directory) then
      return { name := some identifier, directory, origin := directory.text, hash := entry.hash }
    else throw (.stubUnknown identifier)

/-- Stages the stub that goes by a name or lies in a directory. -/
def ofIdentifier (catalogRoot : Path) (identifier : String) : Action Failure Bundle := do
  stage (← sourceOf catalogRoot identifier)

/-- The record of a bundle that is installed now. -/
def record (bundle : Bundle) (installed : Timestamp) : Record where
  name := bundle.name
  firmware := bundle.metadata.family
  version := bundle.metadata.firmware.version
  source := bundle.origin
  installed := installed

end Bundle

end StubManager
