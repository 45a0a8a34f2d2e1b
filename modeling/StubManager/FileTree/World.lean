import StubManager.FileTree.Basic
import StubManager.FileTree.Fault
import StubManager.Path
import StubManager.Timestamp

/-!
# The world of a run

A `World` is the file tree with the working directory, the place for temporary files and the
clock. `World.locate` finds the place a path leads to, following links.
-/

namespace StubManager

/-- What a run can see and change. -/
structure World where
  /-- The root directory. -/
  root : Node
  /-- The names that lead from the root to the working directory. -/
  cwd : List String
  /-- Where temporary directories are made. -/
  tempDir : Path
  clock : Timestamp

/-- Where a path leads. -/
inductive Place where
  /-- To the node that these names lead to. -/
  | node (names : List String)
  /-- To no node, but the directory that would hold it exists. `asDirectory` says that the path is
  written like that of a directory. -/
  | vacant (parent : List String) (name : String) (asDirectory : Bool)
deriving DecidableEq, Repr

namespace World

/-- The most bytes of a name. -/
def nameLimit : Nat := 255

/-- The number of bytes from which a path is too long. -/
def pathLimit : Nat := 4096

/-- The most links that a path may lead over. -/
def linkLimit : Nat := 40

/-- The names a path text goes through; the first is empty for an absolute path. -/
def steps (text : String) : List String :=
  (Text.splitAt '/' text.toList).map String.ofList

/-- Follows `todo` from the directory `here`. A last link is followed if `followLast` says so, and
every other link is; `onLink` goes on from there. -/
def walkWith (root : Node) (followLast : Bool)
    (onLink : (here todo : List String) → Except FileFault Place) (here : List String) :
    (todo : List String) → Except FileFault Place
  | [] => .ok (.node here)
  | name :: todo =>
    match root.get? here with
    | none => .error .notFound
    | some (.file ..) | some (.link _) => .error .notDirectory
    | some (.directory entries) =>
      if name = "" ∨ name = "." then walkWith root followLast onLink here todo
      else if name = ".." then walkWith root followLast onLink here.dropLast todo
      else if nameLimit < name.utf8ByteSize then .error .nameTooLong
      else
        match Node.child? name entries with
        | none =>
          if todo.all (· = "") then .ok (.vacant here name (!todo.isEmpty)) else .error .notFound
        | some (.link target) =>
          if todo = [] ∧ followLast = false then .ok (.node (here ++ [name]))
          else if target = "" then .error .notFound
          else onLink (if (Path.mk target).isAbsolute then [] else here) (steps target ++ todo)
        | some _ => walkWith root followLast onLink (here ++ [name]) todo

/-- Follows names from a directory over at most `links` links. -/
def walk (root : Node) (followLast : Bool) :
    (links : Nat) → (here todo : List String) → Except FileFault Place
  | 0 => walkWith root followLast fun _ _ => .error .linkLoop
  | links + 1 => walkWith root followLast (walk root followLast links)

/-- Why a text cannot be a path at all. -/
def pathFault? (p : Path) : Option FileFault :=
  if p.text.toList.contains '\x00' then some .zeroByte
  else if p.text = "" then some .notFound
  else if pathLimit ≤ p.text.utf8ByteSize then some .nameTooLong
  else none

/-- The place a path leads to. -/
def locate (w : World) (followLast : Bool) (p : Path) : Except FileFault Place :=
  match pathFault? p with
  | some fault => .error fault
  | none =>
    walk w.root followLast linkLimit (if p.isAbsolute then [] else w.cwd) (steps p.text)

/-- The node a path leads to, links followed. -/
def find? (w : World) (p : Path) : Option Node :=
  match w.locate true p with
  | .ok (.node names) => w.root.get? names
  | _ => none

/-- Whether a path leads to something. -/
def exists? (w : World) (p : Path) : Bool := (w.find? p).isSome

/-- Whether a path leads to a regular file. -/
def isFile (w : World) (p : Path) : Bool := (w.find? p).any Node.isFile

/-- Whether a path leads to a directory. -/
def isDirectory (w : World) (p : Path) : Bool := (w.find? p).any Node.isDirectory

/-- The directory that holds the last name of a path, that name, and whether a separator
follows. -/
def locateParent (w : World) (p : Path) : Except FileFault (List String × String × Bool) :=
  match pathFault? p with
  | some fault => .error fault
  | none => do
    let names := (steps p.text).reverse
    let last := names.dropWhile (· = "")
    let start := if p.isAbsolute then [] else w.cwd
    let directory ← walk w.root true linkLimit start (last.drop 1).reverse
    match directory with
    | .vacant .. => .error .notFound
    | .node parent =>
      match w.root.get? parent with
      | some (.directory _) => .ok (parent, last.head?.getD "", names.head? == some "")
      | some _ => .error .notDirectory
      | none => .error .notFound

/-- The world with a node put in its place. -/
def put (w : World) (names : List String) (node : Node) : World :=
  { w with root := w.root.put names node }

/-- The world with a node taken out. -/
def erase (w : World) (names : List String) : World := { w with root := w.root.erase names }

end World

end StubManager
