import FeatureLogic.CommandLine.Execution
/-!
The whole program, from its arguments to what it prints and its exit code.
-/
set_option autoImplicit false

namespace FeatureLogic

structure Response where
  output : String := ""
  errors : String := ""
  exitCode : UInt32
  deriving DecidableEq

namespace Program

def version : String := "0.4.2"

def banner : String :=
  Report.lines [
    "",
    "  ┌─┐┌─┐┌┬┐┬─┐",
    "  ├─┘├─┤ │ ├┬┘",
    "  ┴  ┴ ┴ ┴ ┴└─",
    "",
    "  Feature Structure Unification v" ++ version,
    ""]

def usage : String :=
  Report.lines [
    "Usage: patr [OPTIONS] <COMMAND>",
    "",
    "Commands:",
    "  eval   Evaluate a problem and list its interpretations",
    "  check  Check whether a problem has any interpretation"]

def reject : UsageError → Response
  | .versionRequested => { output := Report.lines ["patr " ++ version], exitCode := 0 }
  | .helpRequested => { output := usage, exitCode := 0 }
  | _ => { errors := usage, exitCode := 2 }

def failure (output message : String) : Response where
  output
  errors := Report.lines ["Error: " ++ message]
  exitCode := 1

/-- The banner comes once the settings are loaded, and not with JSON. -/
def respond (files : FileSystem) (args : List String) : Response :=
  match Invocation.ofArguments args with
  | .error e => reject e
  | .ok i =>
    match Settings.load files i.config with
    | .error e => failure "" e.message
    | .ok settings =>
      let outcome := i.run files settings
      let output := (if i.quiet || i.jsonMode then "" else banner) ++ outcome.output
      match outcome.result with
      | .ok true => { output, exitCode := 0 }
      | .ok false => { output, exitCode := 1 }
      | .error e => failure output e.message

end Program

end FeatureLogic
