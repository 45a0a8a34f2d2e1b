/-!
# Faults of the file system

Why a file operation fails, with the words the operating system has for it.
-/

namespace StubManager

/-- Why a file operation fails. -/
inductive FileFault where
  | notPermitted
  | notFound
  | notExecutable
  | accessDenied
  | busy
  | alreadyExists
  | notDirectory
  | isDirectory
  | invalid
  | nameTooLong
  | notEmpty
  | linkLoop
  /-- A path holds a character that no name may hold. -/
  | zeroByte
  /-- An argument of a program holds a character that no argument may hold. -/
  | zeroInArgument
  /-- The contents of a file are not text. -/
  | notText
  /-- Neither a file nor a link to one can be copied as a file. -/
  | notCopyable
  /-- No parent of a directory exists. -/
  | noRoot
deriving DecidableEq, Repr

namespace FileFault

/-- The words for a fault, and its number where the operating system has one. -/
def words : FileFault → String × Option Nat
  | notPermitted => ("Operation not permitted", some 1)
  | notFound => ("No such file or directory", some 2)
  | notExecutable => ("Exec format error", some 8)
  | accessDenied => ("Permission denied", some 13)
  | busy => ("Device or resource busy", some 16)
  | alreadyExists => ("File exists", some 17)
  | notDirectory => ("Not a directory", some 20)
  | isDirectory => ("Is a directory", some 21)
  | invalid => ("Invalid argument", some 22)
  | nameTooLong => ("File name too long", some 36)
  | notEmpty => ("Directory not empty", some 39)
  | linkLoop => ("Too many levels of symbolic links", some 40)
  | zeroByte => ("file name contained an unexpected NUL byte", none)
  | zeroInArgument => ("nul byte found in provided data", none)
  | notText => ("stream did not contain valid UTF-8", none)
  | notCopyable =>
    ("the source path is neither a regular file nor a symlink to a regular file", none)
  | noRoot => ("failed to create whole tree", none)

/-- The message for a fault. -/
def message (fault : FileFault) : String :=
  match fault.words with
  | (words, some number) => words ++ " (os error " ++ toString number ++ ")"
  | (words, none) => words

end FileFault

end StubManager
