import FeatureLogic.CommandLine.Arguments
import FeatureLogic.CommandLine.Report
import FeatureLogic.Document.Reader
import FeatureLogic.FileSystem.Basic
import FeatureLogic.Problem
import FeatureLogic.Settings
/-!
Running a command: what it prints, what it reports on the way, and whether it succeeds.
-/
set_option autoImplicit false

namespace FeatureLogic

inductive SettingsError where
  | unreadable (e : FileError)
  | malformed
  deriving DecidableEq

def SettingsError.message : SettingsError → String
  | unreadable e => "IO error: " ++ e.message
  | malformed => "TOML parse error"

/-- A path that leads nowhere gives the default settings. -/
def Settings.load (files : FileSystem) (path : String) : Except SettingsError Settings :=
  match files.entryAt path with
  | .error _ => .ok {}
  | .ok .directory => .error (.unreadable .directory)
  | .ok (.file f) =>
    match f.text? with
    | none => .error (.unreadable .notText)
    | some text =>
      match ofText? text with
      | none => .error .malformed
      | some settings => .ok settings

inductive CommandError where
  | unreadable (e : FileError)
  | notRegular (path : String)
  | tooLarge (size : Nat)
  | malformedDocument
  | invalidStructure (e : StructureError)
  | unknownSymbol (e : UnknownSymbol)
  deriving DecidableEq

/-- In bytes. -/
def documentSizeLimit : Nat := 50 * 1024 * 1024

def CommandError.message : CommandError → String
  | unreadable e => "IO error: " ++ e.message
  | notRegular path => "Invalid input: Path '" ++ path ++ "' is not a regular file"
  | tooLarge size =>
    "Invalid input: File size " ++ toString size ++ " bytes exceeds maximum allowed " ++
      toString documentSizeLimit ++ " bytes"
  | malformedDocument => "Deserialization error"
  | invalidStructure e => e.message
  | unknownSymbol e => e.message

/-- The path is resolved first, so that only the names in it are limited and not its length. -/
def Document.load (files : FileSystem) (path : String) :
    Except CommandError (Document Float) :=
  match files path with
  | .error e => .error (.unreadable e)
  | .ok .directory => .error (.notRegular path)
  | .ok (.file f) =>
    if documentSizeLimit < f.size then .error (.tooLarge f.size)
    else
      match f.text? with
      | none => .error (.unreadable .notText)
      | some text =>
        match ofText? text with
        | none => .error .malformedDocument
        | some d => .ok d

def Problem.load (files : FileSystem) (path : String) : Except CommandError (Problem Float) :=
  match Document.load files path with
  | .error e => .error e
  | .ok d =>
    match Problem.ofDocument d with
    | .error e => .error (.invalidStructure e)
    | .ok p => .ok p

/-- What a command reports as it runs. -/
inductive CommandEvent where
  | compiled (slots constraints features atoms : Nat)
  | wildcardsAdded (columns : Nat)
  | search (e : SearchEvent)
  | evaluated (file : String) (interpretations : Nat) (quickCheck : Bool)
  | checked (file : String) (satisfiable : Bool)
  deriving DecidableEq

/-- The result of a command is whether it found what it was asked for. -/
structure CommandOutcome where
  result : Except CommandError Bool
  output : String
  events : List CommandEvent

namespace Problem

def compiledEvent (p : Problem Float) : CommandEvent :=
  .compiled p.table.size p.constraints.size p.vocabulary.features.size p.vocabulary.atoms.size

/-- The problem with the wildcards that the settings ask for, and the events so far. -/
def prepare (p : Problem Float) (settings : EvaluationSettings) :
    Problem Float × List CommandEvent :=
  if settings.addWildcards then
    (p.addWildcards, [p.compiledEvent, .wildcardsAdded p.wildcardCount])
  else (p, [p.compiledEvent])

def runEval (p : Problem Float) (settings : EvaluationSettings) (file : String)
    (jsonMode : Bool) : CommandOutcome :=
  let (p, prepared) := p.prepare settings
  let found := p.eval settings.search
  let events := prepared ++ found.events.map .search ++
    [.evaluated file found.results.length settings.quickCheck]
  match p.render found.results with
  | .error e => ⟨.error (.unknownSymbol e), "", events⟩
  | .ok readings =>
    let report : EvaluationReport :=
      ⟨file, p.table.size, p.constraints.size, p.constraints.maxProbability, readings⟩
    ⟨.ok true, report.render jsonMode, events⟩

def runCheck (p : Problem Float) (settings : EvaluationSettings) (file : String)
    (jsonMode : Bool) : CommandOutcome :=
  let (p, prepared) := p.prepare settings
  let found := p.eval settings.search
  let report : CheckReport := ⟨file, found.found⟩
  ⟨.ok found.found, report.render jsonMode,
    prepared ++ found.events.map .search ++ [.checked file found.found]⟩

end Problem

namespace Invocation

/-- Options can turn the quick check off and wildcards on, but not the other way round. -/
def evaluation (i : Invocation) (settings : Settings) : EvaluationSettings :=
  match i.command with
  | .eval _ noQuickCheck wildcards =>
    ⟨settings.evaluation.quickCheck && !noQuickCheck, settings.evaluation.addWildcards || wildcards⟩
  | .check _ => settings.evaluation

def run (i : Invocation) (files : FileSystem) (settings : Settings) : CommandOutcome :=
  let evaluation := i.evaluation settings
  let withProblem (file : String) (f : Problem Float → CommandOutcome) : CommandOutcome :=
    match Problem.load files file with
    | .error e => ⟨.error e, "", []⟩
    | .ok p => f p
  match i.command with
  | .eval file _ _ => withProblem file fun p => p.runEval evaluation file i.jsonMode
  | .check file => withProblem file fun p => p.runCheck evaluation file i.jsonMode

end Invocation

end FeatureLogic
