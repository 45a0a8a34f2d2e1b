import StubManager.CommandLine.Report
import StubManager.Settings

/-!
# Runs

`Invocation.run` carries out what the arguments of a run ask for, with the registry and the tools
that the environment names.
-/

namespace StubManager

/-- What a run comes to. -/
structure RunResult where
  /-- What is written to the standard output, also before a failure. -/
  output : String := ""
  /-- What is to be said of a device that cannot be reached. -/
  warning : Option Failure := none
  failure : Option Failure := none
deriving Repr, Inhabited

namespace Invocation

/-- What a run works with. -/
structure Context where
  settings : Settings
  project : Option Project
  registry : Registry

/-- Opens what a run works with. -/
def prepare (environment : Environment) (project : Option String) : Action Failure Context := do
  let settings ← MonadExcept.ofExcept (Settings.ofEnvironment environment)
  let here ← Files.ask fun w => (⟨"/" ++ "/".intercalate w.cwd⟩ : Path)
  let project ← Project.discover ((project.map Path.mk).getD here)
  return { settings, project, registry := ← Registry.load settings.home }

/-- Carries out a command. -/
def perform (context : Context) : Command → Work RunResult
  | .create port modules script => do
    let request : ExtractionRequest := {
      port
      script := (script.map Path.mk).getD context.settings.script
      modules := if modules.isEmpty then none else some modules }
    let tool : Transport Unit := Tool.transport context.settings.tool
    let work := Extraction.run tool Registry.store (context.project.map (·.manifest)) request
    let extracted ← (fun site =>
      let (result, (site, _)) := work (site, ())
      (result, site) : Work Extracted)
    return {
      output := Report.extracted extracted
      warning := match extracted with
        | .unreachable failure => some failure
        | .installed _ => none }
  | .add name force => do
    let added ← Installation.add Registry.store context.settings.catalog
      (context.project.map (·.manifest)) name force
    return { output := Report.added added }
  | .remove name => do
    let removed ← Installation.remove Registry.store (context.project.map (·.manifest)) name
    return { output := Report.removed removed }
  | .list all => do
    let listing ← (Listing.load context.registry (if all then none else context.project) :
      Action Failure Listing)
    return { output := Report.listing listing }
  | .completions shell => return { output := Report.completions shell }

/-- Opens what the run works with and carries out its command. -/
def performIn (environment : Environment) (invocation : Invocation) : Action Failure RunResult := do
  let context ← prepare environment invocation.project
  fun world =>
    let (result, site) := perform context invocation.command { world, registry := context.registry }
    (result, site.world)

/-- Carries out a run. Completions need nothing of the world. -/
def run (environment : Environment) (invocation : Invocation) (world : World) :
    RunResult × World :=
  match invocation.command with
  | .completions shell => ({ output := Report.completions shell }, world)
  | _ =>
    match performIn environment invocation world with
    | (.ok result, world) => (result, world)
    | (.error failure, world) => ({ failure := some failure }, world)

end Invocation

end StubManager
