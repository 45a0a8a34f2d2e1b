import StubManager.CommandLine.Arguments
import StubManager.CommandLine.Table
import StubManager.Extraction
import StubManager.Listing

/-!
# Reports

What a run writes about what it did.
-/

namespace StubManager.Report

/-- The line about a changed manifest. -/
def manifestLine (updated : Bool) : String :=
  if updated then "Updated project stub list\n" else ""

/-- The report of an addition. -/
def added (added : Added) : String :=
  added.record.name ++ (if added.alreadyInstalled then " is already installed\n" else " added!\n")
    ++ manifestLine added.manifestUpdated

/-- The report of a removal. -/
def removed (removed : Removed) : String :=
  removed.record.name ++ " removed\n" ++ manifestLine removed.manifestUpdated

/-- The report of an extraction; a device that cannot be reached is not part of it. -/
def extracted : Extracted → String
  | .installed outcome => added outcome
  | .unreachable _ => ""

/-- The row of a record. -/
def row (record : Record) : List String :=
  [record.name, record.version.getD "-", record.source, record.installed.renderMinute]

/-- The table of a family. -/
def family (name : String) (records : List Record) : String :=
  "\n" ++ name ++ " (" ++ toString records.length ++ ")\n"
    ++ Table.render ["Name", "Version", "Source", "Installed"] (records.map row) ++ "\n"

/-- What a listing is about. -/
def scope : ListScope → String
  | .project name => "Project: " ++ name
  | .everything => "All projects"

/-- The report of a listing. -/
def listing (listing : Listing) : String :=
  "Installed Stubs\n" ++ scope listing.scope ++ "\n"
    ++ (if listing.groups.isEmpty then "\nNo stubs installed.\n" else "")
    ++ String.join (listing.groups.map fun (name, records) => family name records)
    ++ (if listing.missing.isEmpty then ""
        else "\nNot installed: " ++ ", ".intercalate listing.missing ++ "\n")

/-- What is said of arguments that cannot be carried out. -/
def usage : UsageError → String
  | .version => "mpstubs 0.1.0\n"
  | .help | .nothing => synopsis
  | .invalidValue => "error: invalid value\n\n" ++ synopsis
  | .unknownArgument => "error: unexpected argument\n\n" ++ synopsis
  | .argumentConflict => "error: an argument cannot be used multiple times\n\n" ++ synopsis
  | .missingCommand => "error: a command is missing\n\n" ++ synopsis
  | .missingArgument => "error: an argument is missing\n\n" ++ synopsis
  | .unknownCommand => "error: unrecognized command\n\n" ++ synopsis
  | .tooManyValues => "error: an option takes no value\n\n" ++ synopsis
where
  /-- How the program is called. -/
  synopsis : String :=
    "Manage type stubs for MicroPython firmware\n\nUsage: mpstubs [OPTIONS] <COMMAND>\n\n"
      ++ "Commands:\n"
      ++ "  create [-m MODULE]... [--script FILE] <PORT>  Extract stubs from a board\n"
      ++ "  add [-f] <NAME>                               Install a stub package\n"
      ++ "  remove <NAME>                                 Remove a stub package\n"
      ++ "  list [-a]                                     List installed stub packages\n"
      ++ "  completions <SHELL>                           Write a completion script\n\n"
      ++ "Options:\n"
      ++ "  -p, --project <DIR>  The directory of the project\n"
      ++ "  -v, --verbose        Say more\n"
      ++ "  -h, --help           Print help\n"
      ++ "  -V, --version        Print version\n"

/-- The names of the commands. -/
def commandNames : String := "create add remove list completions help"

/-- A script that completes the names of the commands in a shell. -/
def completions : CompletionShell → String
  | .bash => "complete -W '" ++ commandNames ++ "' mpstubs\n"
  | .elvish =>
    "set edit:completion:arg-completer[mpstubs] = \x7b|@words| put " ++ commandNames ++ " \x7d\n"
  | .fish => "complete -c mpstubs -f -n __fish_use_subcommand -a '" ++ commandNames ++ "'\n"
  | .powershell =>
    "Register-ArgumentCompleter -Native -CommandName mpstubs -ScriptBlock \x7b '" ++ commandNames
      ++ "'.Split() \x7d\n"
  | .zsh => "#compdef mpstubs\n_arguments '1:command:(" ++ commandNames ++ ")'\n"

end StubManager.Report
