import StubManager.Digest.Blake3
import StubManager.Digest.Label
import StubManager.Failure
import StubManager.FileTree.Operations

/-!
# Digests of directories

The digest of a directory is the hash of a stream of bytes: for each file below it, in the order
of their paths, the path from the directory and the contents, with a zero byte behind each.
-/

namespace StubManager.Digest

/-- The order of paths, name by name. -/
def pathsInOrder : List String → List String → Bool
  | [], _ => true
  | _ :: _, [] => false
  | a :: as, b :: bs => if a = b then pathsInOrder as bs else a < b

/-- The files below a node with the names that lead to them, in the order of their paths. Links
are no files. -/
def files (node : Node) : List (List String × ByteArray) :=
  (node.descendants.filterMap fun (names, n) =>
    match n with
    | .file data _ => some (names, data)
    | _ => none).mergeSort fun a b => pathsInOrder a.1 b.1

/-- A path from the directory on, with slashes for backslashes. -/
def relativePath (names : List String) : String :=
  ("/".intercalate names).map fun c => if c = '\\' then '/' else c

/-- What one file adds to the stream. -/
def filePart (file : List String × ByteArray) : ByteArray :=
  ((relativePath file.1).toUTF8.push 0 ++ file.2).push 0

/-- The stream of bytes that stands for the files of a directory. -/
def stream (files : List (List String × ByteArray)) : ByteArray :=
  files.foldl (fun bytes file => bytes ++ filePart file) ByteArray.empty

/-- The written digest of the files below a node. -/
def ofNode (node : Node) : String :=
  String.ofList label ++ hex (blake3 (stream (files node)))

/-- The written digest of a directory. -/
def ofDirectory (p : Path) : Action Failure String := do
  match (← get).find? p with
  | some (.directory entries) => return ofNode (.directory entries)
  | _ => throw (.readFailed p.text "not a directory")

end StubManager.Digest
