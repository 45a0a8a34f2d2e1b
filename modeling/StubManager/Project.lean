import StubManager.Artifact
import StubManager.FileTree.Temporary
import StubManager.Yaml.Node

/-!
# Projects

A project is a directory with a file `mpstubs.yaml`. The file may name another text, the manifest,
that holds the list of the stubs in use. `Project.discover` finds the project a directory lies in,
and `Manifest.plan` works out an edit of the list.
-/

namespace StubManager

/-- Reads the text at a path together with its anchor. -/
def Artifact.load (p : Path) (anchor : String) : Action Failure Artifact := do
  let text ← (Files.readText p).adapt fun fault => .readFailed p.text fault.message
  return { text, anchor, origin := p.text }

/-- Puts the text in the place of a file. -/
def Artifact.save (artifact : Artifact) (p : Path) : Action Failure Unit :=
  (Files.replace p artifact.text.toUTF8).adapt fun fault => .writeFailed p.text fault.message

/-- The text that holds the list of a project. -/
structure Manifest where
  path : Path
  anchor : String
deriving DecidableEq, Repr, Inhabited

namespace Manifest

/-- Reads the manifest's file. -/
def load (manifest : Manifest) : Action Failure Artifact :=
  Artifact.load manifest.path manifest.anchor

/-- The names in the list. -/
def entries (manifest : Manifest) : Action Failure (List String) := do
  MonadExcept.ofExcept (← manifest.load).entries

/-- The text after a change; none if the change leaves it as it is. Nothing is written. -/
def plan (manifest : Manifest) (change : ChangeSet) : Action Failure (Option Artifact) := do
  let current ← manifest.load
  let updated ← MonadExcept.ofExcept (current.apply change)
  return if updated.text = current.text then none else some updated

end Manifest

/-- What a project says of itself. -/
structure ProjectConfig where
  name : Option String := none
  /-- The file that holds the list. -/
  manifest : Option String := none
  /-- The name the list is assigned to. -/
  anchor : Option String := none
deriving DecidableEq, Repr, Inhabited

/-- A directory with a project file. -/
structure Project where
  root : Path
  config : ProjectConfig := {}
deriving DecidableEq, Repr, Inhabited

namespace ProjectConfig

open Yaml

/-- Reads the text of a project file. -/
def parse? (text : String) : Option ProjectConfig := do
  let document ← Document.parse? text
  let root := document.root.getD .empty
  if ← document.isNothing? root then return {}
  let members ← document.entries? root
  return {
    name := ← document.optionalMember? "name" members
    manifest := ← document.optionalMember? "manifest" members
    anchor := ← document.optionalMember? "anchor" members }

end ProjectConfig

namespace Project

/-- The file that makes a directory a project. -/
def fileName : String := "mpstubs.yaml"

/-- What the list is assigned to unless the project file says otherwise. -/
def defaultAnchor : String := "stubs"

/-- The nearest directory with a project file: the given one or one around it. -/
def findRoot? (w : World) (start : Path) : Option Path :=
  start.ancestors.find? fun directory => w.isFile (directory.join fileName)

/-- Reads the project file of a directory. -/
def load (root : Path) : Action Failure Project := do
  let p := root.join fileName
  let text ← (Files.readText p).adapt fun fault => .readFailed p.text fault.message
  match ProjectConfig.parse? text with
  | some config => return { root, config }
  | none => throw (.configUnreadable p.text)

/-- The project that a directory lies in, if there is one. -/
def discover (start : Path) : Action Failure (Option Project) := do
  let start ← match ← (Files.canonical start).run with
    | .ok found => pure found
    | .error _ => pure start
  match ← Files.ask (findRoot? · start) with
  | none => return none
  | some root => return some (← load root)

/-- The name a project goes by. -/
def name (project : Project) : String :=
  project.config.name.getD (project.root.fileName?.getD "")

/-- Where the list of a project is. -/
def manifest (project : Project) : Manifest where
  path := project.root.join (project.config.manifest.getD fileName)
  anchor := project.config.anchor.getD defaultAnchor

end Project

end StubManager
