import StubManager.FileTree.World

/-!
# File operations

Reading, writing, copying, moving and removing files and directories of a `World`. An operation
that fails leaves behind what it did before it failed.
-/

namespace StubManager

/-- What a run does to the world, stopping at the first fault. -/
abbrev Action (ε α : Type) := ExceptT ε (StateM World) α

namespace Files

open World

/-- An operation of the file system. -/
abbrev FileAction (α : Type) := Action FileFault α

/-- A question about the world. -/
def ask {ε α : Type} (question : World → α) : Action ε α := do return question (← get)

/-- Continues with an answer that may be a fault. -/
def orFault {ε α : Type} (answer : World → Except ε α) : Action ε α := do
  match answer (← get) with
  | .ok a => return a
  | .error fault => throw fault

/-- The contents of a file. -/
def read (p : Path) : FileAction ByteArray := do
  match ← orFault (·.locate true p) with
  | .vacant .. => throw .notFound
  | .node names =>
    match (← get).root.get? names with
    | some (.file data _) => return data
    | some _ => throw .isDirectory
    | none => throw .notFound

/-- The contents of a text file. -/
def readText (p : Path) : FileAction String := do
  match String.fromUTF8? (← read p) with
  | some text => return text
  | none => throw .notText

/-- Writes a file, in place of its contents if it exists. `executable` changes the permission. -/
def writeWith (executable : Option Bool) (p : Path) (data : ByteArray) : FileAction Unit := do
  match ← orFault (·.locate true p) with
  | .vacant _ _ true => throw .isDirectory
  | .vacant parent name false =>
    modify (·.put (parent ++ [name]) (.file data (executable.getD false)))
  | .node names =>
    match (← get).root.get? names with
    | some (.file _ permission) => modify (·.put names (.file data (executable.getD permission)))
    | _ => throw .isDirectory

/-- Writes a file, new or in place of its older contents, and keeps an older file's mode. -/
def write (p : Path) (data : ByteArray) : FileAction Unit := writeWith none p data

/-- Copies one file with its permission. The target is emptied before the source is read. -/
def copyFile (source target : Path) : FileAction Unit := do
  if ← ask (·.isDirectory source) then throw .notCopyable
  let _ ← read source
  let executable ← ask fun w =>
    match w.find? source with
    | some (.file _ executable) => executable
    | _ => false
  writeWith (some executable) target ByteArray.empty
  writeWith none target (← read source)

/-- Makes one directory. -/
def makeDirectory (p : Path) : FileAction Unit := do
  match ← orFault (·.locate false p) with
  | .node _ => throw .alreadyExists
  | .vacant parent name _ => modify (·.put (parent ++ [name]) (.directory []))

/-- A fault of making a directory that is there already does not matter. -/
def unlessThere (p : Path) (fault : FileFault) : FileAction Unit := do
  unless ← ask (·.isDirectory p) do throw fault

/-- Makes the first of the given directories, each the parent of the one before, and those of the
others that it needs. -/
def makeFirst : List Path → FileAction Unit
  | [] => throw .noRoot
  | p :: parents =>
    if p.text = "" then return
    else
      tryCatch (makeDirectory p) fun
        | .notFound => do
          makeFirst parents
          tryCatch (makeDirectory p) (unlessThere p)
        | fault => unlessThere p fault

/-- Makes a directory and all its parents. -/
def makeDirectories (p : Path) : FileAction Unit := makeFirst p.ancestors

/-- Removes a file or a link. -/
def removeFile (p : Path) : FileAction Unit := do
  match ← orFault (·.locate false p) with
  | .vacant .. => throw .notFound
  | .node names =>
    match (← get).root.get? names with
    | some (.directory _) => throw .isDirectory
    | some _ => modify (·.erase names)
    | none => throw .notFound

/-- Removes a directory and all it holds, or a link. -/
def removeTree (p : Path) : FileAction Unit := do
  match ← orFault (·.locate false p) with
  | .vacant .. => throw .notFound
  | .node names =>
    match (← get).root.get? names with
    | some (.file ..) => throw .notDirectory
    | some _ => modify (·.erase names)
    | none => throw .notFound

/-- Whether a node may be moved onto another. -/
def replaceFault? (new old : Node) : Option FileFault :=
  match new, old with
  | .directory _, .directory [] => none
  | .directory _, .directory _ => some .notEmpty
  | .directory _, _ => some .notDirectory
  | _, .directory _ => some .isDirectory
  | _, _ => none

/-- Moves a file, a link or a directory. -/
def rename (source target : Path) : FileAction Unit := do
  let (oldParent, oldName, oldSlash) ← orFault (·.locateParent source)
  let (newParent, newName, newSlash) ← orFault (·.locateParent target)
  let special (name : String) : Bool := name = "" || name = "." || name = ".."
  if special oldName || special newName then throw .busy
  else if nameLimit < oldName.utf8ByteSize || nameLimit < newName.utf8ByteSize then
    throw .nameTooLong
  else
    let old := oldParent ++ [oldName]
    let new := newParent ++ [newName]
    let w ← get
    match w.root.get? old with
    | none => throw .notFound
    | some node =>
      if !node.isDirectory && (oldSlash || newSlash) then throw .notDirectory
      else if old.isPrefixOf newParent then throw .invalid
      else if new.isPrefixOf oldParent then throw .notEmpty
      else if old = new then return
      else
        match (w.root.get? new).bind (replaceFault? node) with
        | some fault => throw fault
        | none => set ((w.erase old).put new node)

/-- Removes a directory if there is one. -/
def clear (p : Path) : FileAction Unit := do
  if ← ask (·.exists? p) then removeTree p

/-- Moves a directory in the place of another. -/
def moveOver (source target : Path) : FileAction Unit := do
  clear target
  rename source target

/-- The names in a directory. -/
def list (p : Path) : FileAction (List String) := do
  match ← orFault (·.locate true p) with
  | .vacant .. => throw .notFound
  | .node names =>
    match (← get).root.get? names with
    | some (.directory entries) => return entries.map (·.1)
    | some _ => throw .notDirectory
    | none => throw .notFound

/-- The absolute path without links that a path leads to. -/
def canonical (p : Path) : FileAction Path := do
  match ← orFault (·.locate true p) with
  | .vacant .. => throw .notFound
  | .node names => return ⟨"/" ++ "/".intercalate names⟩

/-- Copies what a directory holds, `depth` levels deep at most, leaving out the excluded names at
every level. Links are followed. -/
def copyTreeWithin (exclude : List String) : (depth : Nat) → (source target : Path) →
    FileAction Unit
  | 0, _, _ => throw .nameTooLong
  | depth + 1, source, target => do
    unless ← ask (·.exists? target) do makeDirectories target
    for name in ← list source do
      unless exclude.contains name do
        if ← ask (·.isDirectory (source.join name)) then
          copyTreeWithin exclude depth (source.join name) (target.join name)
        else copyFile (source.join name) (target.join name)

/-- Copies what a directory holds. No path is longer than the limit, so neither is any chain of
directories. -/
def copyTree (exclude : List String) (source target : Path) : FileAction Unit :=
  copyTreeWithin exclude pathLimit source target

/-- The names of caches, which belong to no stub. -/
def caches : List String := ["__pycache__", ".git"]

/-- The names that a temporary entry may have: `stem` with a suffix. -/
def temporaryNames (stem : String) : List String :=
  (stem ++ "XXXXXX") :: (List.range 64).map fun n => stem ++ "X" ++ Timestamp.padded 5 n

/-- Whether something goes by a name in a directory. -/
def isTaken (directory : Path) (name : String) (w : World) : Bool :=
  (w.locate false (directory.join name)).toOption.any fun
    | .node _ => true
    | .vacant .. => false

/-- A name for a temporary entry of a directory, the first that is free. -/
def freeName? (directory : Path) (stem : String) (w : World) : Option String :=
  (temporaryNames stem).find? (!isTaken directory · w)

/-- Writes a draft and moves it in the place of a file. -/
def replaceBy (draft p : Path) (data : ByteArray) : FileAction Unit := do
  write draft data
  try rename draft p
  catch fault =>
    (removeFile draft : FileAction Unit) <|> pure ()
    throw fault

/-- The directory that holds the last name of a path. -/
def holder (p : Path) : Path :=
  match p.parent? with
  | some parent => if parent.text = "" then ⟨"."⟩ else parent
  | none => ⟨"."⟩

/-- Replaces a file as a whole: a new file beside it takes its place. -/
def replace (p : Path) (data : ByteArray) : FileAction Unit := do
  makeDirectories (holder p)
  match ← ask (freeName? (holder p) ".tmp") with
  | none => throw .alreadyExists
  | some name => replaceBy ((holder p).join name) p data

end Files

end StubManager
