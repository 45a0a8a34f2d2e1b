import StubManager.FileTree.Operations
import StubManager.Shell.Script

/-!
# Running shell scripts

`Shell.spawn` runs a program of the file tree: a script with `#!/bin/sh` in its first line. A run
ends with a status and has written to two streams.
-/

namespace StubManager.Shell

/-- How a process ends. -/
inductive Status where
  | exited (code : Nat)
  | killed (signal : Nat)
deriving DecidableEq, Repr, Inhabited

namespace Status

/-- Whether the process ended by itself with code zero. -/
def isSuccess (status : Status) : Bool := status == .exited 0

/-- The names of signals. -/
def signalNames : List (Nat × String) :=
  [(1, "SIGHUP"), (2, "SIGINT"), (3, "SIGQUIT"), (4, "SIGILL"), (5, "SIGTRAP"), (6, "SIGABRT"),
   (7, "SIGBUS"), (8, "SIGFPE"), (9, "SIGKILL"), (10, "SIGUSR1"), (11, "SIGSEGV"),
   (12, "SIGUSR2"), (13, "SIGPIPE"), (14, "SIGALRM"), (15, "SIGTERM")]

/-- The words for a status. -/
def describe : Status → String
  | exited code => "exit status: " ++ toString code
  | killed signal =>
    "signal: " ++ toString signal ++ ((signalNames.lookup signal).elim "" (" (" ++ · ++ ")"))

end Status

/-- How a process ended and what it wrote. -/
structure Output where
  status : Status
  stdout : ByteArray := .empty
  stderr : ByteArray := .empty
deriving Inhabited

/-- A script under way. -/
structure Process where
  world : World
  arguments : List String
  stdout : ByteArray := .empty
  stderr : ByteArray := .empty
  /-- The status of the last command. -/
  code : Nat := 0
  /-- Set once the script has ended. -/
  ended : Option Status := none

/-- What a command answers: its code and what it writes. -/
structure Reply where
  code : Nat := 0
  stdout : List UInt8 := []
  stderr : List UInt8 := []

private def bytesOf (text : String) : List UInt8 := text.toUTF8.toList

/-- A reply with a message that something went wrong. -/
def Reply.complaint (text : String) : Reply := { code := 1, stderr := bytesOf (text ++ "\n") }

/-- The number under which a script knows its own process. -/
def processNumber : String := "4242"

/-! ## Words -/

/-- The characters that a piece stands for, each with whether it is quoted. -/
def expandPiece (arguments : List String) : Piece → List (Char × Bool)
  | .text quoted text => text.map (·, quoted)
  | .argument number => ((arguments[number - 1]?.getD "").toList).map (·, true)
  | .arguments => ((" ".intercalate arguments).toList).map (·, true)
  | .process => processNumber.toList.map (·, true)

/-- Whether a name fits a pattern with stars. -/
def fits : (pattern : List (Char × Bool)) → (name : List Char) → Bool
  | [], name => name.isEmpty
  | ('*', false) :: pattern, [] => fits pattern []
  | ('*', false) :: pattern, c :: name =>
    fits pattern (c :: name) || fits (('*', false) :: pattern) name
  | (p, _) :: pattern, c :: name => p = c && fits pattern name
  | _ :: _, [] => false
termination_by pattern name => (pattern.length, name.length)

/-- The words that a word stands for: itself, or the paths that its last part fits. -/
def expand (process : Process) (word : Word) : List String :=
  let chars := word.flatMap (expandPiece process.arguments)
  let text := String.ofList (chars.map (·.1))
  if chars.contains ('*', false) then
    let last := (chars.reverse.takeWhile (·.1 ≠ '/')).reverse
    let front := String.ofList ((chars.take (chars.length - last.length)).map (·.1))
    let directory : Path := if front.isEmpty then ⟨"."⟩ else ⟨front⟩
    let names := match ((Files.list directory).run process.world).1 with
      | .ok names => names
      | .error _ => []
    let found := names.filter fun name =>
      fits last name.toList && (name.toList.head? ≠ some '.' || last.head?.any (·.1 = '.'))
    if found.isEmpty then [text] else found.map (front ++ ·)
  else [text]

/-! ## Commands -/

private def octalValue (digits : List Char) : Nat :=
  digits.foldl (fun n d => n * 8 + (d.toNat - 48)) 0

private def isOctal (c : Char) : Bool := '0' ≤ c && c ≤ '7'

/-- The bytes of a format, at most `fuel` characters of it, and the arguments that are left. -/
def formatBytes : (fuel : Nat) → List Char → List String → List UInt8 × List String
  | 0, _, arguments => ([], arguments)
  | fuel + 1, text, arguments =>
    let go (front : List UInt8) (rest : List Char) (arguments : List String) :=
      let (more, arguments) := formatBytes fuel rest arguments
      (front ++ more, arguments)
    match text with
    | [] => ([], arguments)
    | '%' :: '%' :: rest => go (bytesOf "%") rest arguments
    | '%' :: 's' :: rest => go (bytesOf (arguments.head?.getD "")) rest (arguments.drop 1)
    | '%' :: 'd' :: rest => go (bytesOf (arguments.head?.getD "0")) rest (arguments.drop 1)
    | '\\' :: c :: rest =>
      match c with
      | 'n' => go [10] rest arguments
      | 't' => go [9] rest arguments
      | 'r' => go [13] rest arguments
      | 'a' => go [7] rest arguments
      | 'b' => go [8] rest arguments
      | 'f' => go [12] rest arguments
      | 'v' => go [11] rest arguments
      | '\\' => go (bytesOf "\\") rest arguments
      | _ =>
        if isOctal c then
          let digits := ((c :: rest).takeWhile isOctal).take 3
          go [UInt8.ofNat (octalValue digits)] ((c :: rest).drop digits.length) arguments
        else go (bytesOf (String.ofList ['\\', c])) rest arguments
    | c :: rest => go (bytesOf (String.singleton c)) rest arguments

/-- The bytes of a format that is used again until no arguments are left. -/
def formatAll (format : List Char) : (fuel : Nat) → List String → List UInt8
  | 0, _ => []
  | fuel + 1, arguments =>
    let (bytes, left) := formatBytes (format.length + 1) format arguments
    if left.isEmpty || left.length = arguments.length then bytes
    else bytes ++ formatAll format fuel left

/-- Copies one file, with the words of the tool that fail. -/
def copyOne (source target : String) (w : World) : Reply × World :=
  if w.isDirectory ⟨source⟩ then
    (.complaint ("cp: -r not specified; omitting directory '" ++ source ++ "'"), w)
  else if !w.exists? ⟨source⟩ then
    (.complaint ("cp: cannot stat '" ++ source ++ "': No such file or directory"), w)
  else
    match (Files.copyFile ⟨source⟩ ⟨target⟩).run w with
    | (.ok (), w) => ({}, w)
    | (.error fault, w) =>
      (.complaint ("cp: cannot create regular file '" ++ target ++ "': " ++ fault.words.1), w)

/-- Replies one after the other. -/
def Reply.append (first second : Reply) : Reply :=
  { code := max first.code second.code, stdout := first.stdout ++ second.stdout,
    stderr := first.stderr ++ second.stderr }

/-- Copies files into a directory, or one file to another. -/
def copyAll (sources : List String) (target : String) (w : World) : Reply × World :=
  if w.isDirectory ⟨target⟩ then
    sources.foldl (fun (reply, w) source =>
      let name := (Path.mk source).fileName?.getD source
      let (next, w) := copyOne source ((Path.mk target).join name).text w
      (reply.append next, w)) ({}, w)
  else
    match sources with
    | [source] => copyOne source target w
    | _ => (.complaint ("cp: target '" ++ target ++ "': No such file or directory"), w)

/-- Makes directories with their parents. -/
def makeAll (names : List String) (w : World) : Reply × World :=
  names.foldl (fun (reply, w) name =>
    match (Files.makeDirectories ⟨name⟩).run w with
    | (.ok (), w) => (reply, w)
    | (.error fault, w) =>
      (reply.append
        (.complaint ("mkdir: cannot create directory '" ++ name ++ "': " ++ fault.words.1)), w))
    ({}, w)

/-- A name in a message, between quotes if the shell would not take it as it is. -/
def nameInMessage (name : String) : String :=
  let isSpecial (c : Char) : Bool := " \t\n!\"$&()*;<=>?[\\^`|'".toList.contains c
  if name.toList.any isSpecial || name.isEmpty then
    if name.toList.contains '\'' then "\"" ++ name ++ "\"" else "'" ++ name ++ "'"
  else name

/-- The contents of files one after the other. -/
def concatenate (names : List String) (w : World) : Reply :=
  names.foldl (fun reply name =>
    match ((Files.read ⟨name⟩).run w).1 with
    | .ok data => reply.append { stdout := data.toList }
    | .error fault =>
      reply.append (.complaint ("cat: " ++ nameInMessage name ++ ": " ++ fault.words.1))) {}

/-- Runs a simple command by its words. -/
def perform (process : Process) : List String → Reply × Process
  | "exit" :: code =>
    let code := match code with
      | code :: _ => code.toNat?.getD 2 % 256
      | [] => process.code
    ({ code }, { process with ended := some (.exited code) })
  | "kill" :: signal :: [target] =>
    if target = processNumber then
      let number := ((signal.drop 1).toString.toNat?).getD 15
      ({}, { process with ended := some (.killed number) })
    else (.complaint "kill: No such process", process)
  | "printf" :: format :: arguments =>
    ({ stdout := formatAll format.toList (arguments.length + 1) arguments }, process)
  | "echo" :: arguments => ({ stdout := bytesOf (" ".intercalate arguments ++ "\n") }, process)
  | "mkdir" :: "-p" :: names =>
    let (reply, world) := makeAll names process.world
    (reply, { process with world })
  | "cp" :: arguments =>
    match arguments.reverse with
    | target :: sources =>
      let (reply, world) := copyAll sources.reverse target process.world
      (reply, { process with world })
    | [] => (.complaint "cp: missing file operand", process)
  | "cat" :: names => (concatenate names process.world, process)
  | "true" :: _ | ":" :: _ | [] => ({}, process)
  | "false" :: _ => ({ code := 1 }, process)
  | name :: _ => ({ (Reply.complaint ("sh: " ++ name ++ ": not found")) with code := 127 }, process)

/-- Where what a command writes to a stream goes: to a file or to a stream of the script. -/
inductive Outlet where
  | stream (number : Nat)
  | file (path : Path)
deriving DecidableEq, Repr

/-- Follows redirections in order, opening their files. -/
def redirect (process : Process) (outlets : Outlet × Outlet) :
    List Redirection → Except FileFault (Process × (Outlet × Outlet))
  | [] => .ok (process, outlets)
  | { stream, target } :: more => do
    let (process, outlet) ← match target with
      | .stream number => pure (process, if number = 2 then outlets.2 else outlets.1)
      | .file name append =>
        let path : Path := ⟨(expand process name).head?.getD ""⟩
        let old := match ((Files.read path).run process.world).1 with
          | .ok data => if append then data else .empty
          | .error _ => .empty
        match (Files.write path old).run process.world with
        | (.ok (), world) => pure ({ process with world }, Outlet.file path)
        | (.error fault, _) => throw fault
    redirect process (if stream = 2 then (outlets.1, outlet) else (outlet, outlets.2)) more

/-- Writes bytes to where they go. -/
def emit (outlet : Outlet) (bytes : List UInt8) (process : Process) : Process :=
  let data := ByteArray.mk bytes.toArray
  match outlet with
  | .stream 2 => { process with stderr := process.stderr ++ data }
  | .stream _ => { process with stdout := process.stdout ++ data }
  | .file path =>
    let old := match ((Files.read path).run process.world).1 with
      | .ok old => old
      | .error _ => .empty
    { process with world := ((Files.write path (old ++ data)).run process.world).2 }

/-- Runs a simple command. -/
def runSimple (process : Process) (words : List Word) (redirections : List Redirection) :
    Process :=
  let arguments := words.flatMap (expand process)
  match redirect process (.stream 1, .stream 2) redirections with
  | .error fault =>
    let complaint := bytesOf ("sh: cannot create: " ++ fault.words.1 ++ "\n")
    emit (.stream 2) complaint { process with code := 2 }
  | .ok (process, (out, err)) =>
    let (reply, process) := perform process arguments
    { emit err reply.stderr (emit out reply.stdout process) with code := reply.code }

/-- Runs commands until the script has ended, at most `fuel` deep. -/
def runCommands : (fuel : Nat) → Process → List Command → Process
  | 0, process, _ => process
  | _, process, [] => process
  | fuel + 1, process, command :: more =>
    if process.ended.isSome then process
    else
      match command with
      | .simple words redirections => runCommands fuel (runSimple process words redirections) more
      | .choose subject branches =>
        let subject := (expand process subject).head?.getD ""
        let taken := branches.find? fun (patterns, _) =>
          patterns.any fun pattern =>
            fits (pattern.flatMap (expandPiece process.arguments)) subject.toList
        let process := { process with code := 0 }
        runCommands fuel (runCommands fuel process (taken.elim [] (·.2))) more

/-- The interpreter that scripts name in their first line. -/
def interpreter : String := "/bin/sh"

/-- The interpreter that the first line of a script names. -/
def interpreterOf? (text : List Char) : Option String :=
  match text with
  | '#' :: '!' :: rest =>
    some (String.ofList (((rest.takeWhile (· ≠ '\n')).dropWhile (· = ' ')).takeWhile (· ≠ ' ')))
  | _ => none

/-- Runs a script. -/
def runScript (text : List Char) (arguments : List String) (world : World) : Output × World :=
  let process : Process := { world, arguments }
  match Script.parse? text with
  | none => ({ status := .exited 2 }, world)
  | some commands =>
    let process := runCommands (text.length + 1) process commands
    ({ status := process.ended.getD (.exited process.code), stdout := process.stdout,
       stderr := process.stderr }, process.world)

/-- Runs a program with arguments. A name without a separator is looked for where programs are
installed, and none is installed. -/
def spawn (program : Path) (arguments : List String) : Files.FileAction Output := do
  if (program.text :: arguments).any (·.toList.contains '\x00') then throw .zeroInArgument
  if program.text = "" || !program.text.toList.contains '/' then throw .notFound
  match ← Files.orFault (·.locate true program) with
  | .vacant .. => throw .notFound
  | .node names =>
    match (← get).root.get? names with
    | some (.file data true) =>
      let text := (String.fromUTF8? data).getD ""
      match interpreterOf? text.toList with
      | none => throw .notExecutable
      | some name =>
        if name = interpreter then
          modifyGet fun w => runScript text.toList arguments w
        else throw .notFound
    | some _ => throw .accessDenied
    | none => throw .notFound

end StubManager.Shell
