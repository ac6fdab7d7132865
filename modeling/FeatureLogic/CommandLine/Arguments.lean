/-!
The words of a command line: a command, with options before and after its name.
-/
set_option autoImplicit false

namespace FeatureLogic

inductive Command where
  | eval (file : String) (noQuickCheck wildcards : Bool)
  | check (file : String)
  deriving DecidableEq

def Command.file : Command → String
  | eval file _ _ => file
  | check file => file

structure Invocation where
  verbose : Bool
  quiet : Bool
  jsonMode : Bool
  config : String
  command : Command
  deriving DecidableEq

/-- Why a command line asks for no command to be run. -/
inductive UsageError where
  | helpRequested
  | versionRequested
  | nothingGiven
  | missingCommand
  | unknownCommand
  | missingFile
  | unknownArgument
  | missingValue
  | unexpectedValue
  | repeated
  deriving DecidableEq

namespace CommandLine

inductive Parameter where
  | verbose
  | quiet
  | config
  | jsonMode
  | help
  | version
  | file
  | noQuickCheck
  | wildcards
  deriving DecidableEq

namespace Parameter

def long : Parameter → String
  | verbose => "verbose"
  | quiet => "quiet"
  | config => "config"
  | jsonMode => "json-mode"
  | help => "help"
  | version => "version"
  | file => "file"
  | noQuickCheck => "no-quick-check"
  | wildcards => "wildcards"

def short? : Parameter → Option Char
  | verbose => some 'v'
  | quiet => some 'q'
  | config => some 'c'
  | help => some 'h'
  | version => some 'V'
  | file => some 'f'
  | jsonMode | noQuickCheck | wildcards => none

def takesValue : Parameter → Bool
  | config | file => true
  | _ => false

end Parameter

/-- Options belong to the program or to one of its commands. -/
inductive Level where
  | program
  | eval
  | check
  deriving DecidableEq

namespace Level

def shared : List Parameter := [.verbose, .quiet, .config, .jsonMode, .help]

def parameters : Level → List Parameter
  | program => .version :: shared
  | eval => .file :: .noQuickCheck :: .wildcards :: shared
  | check => .file :: shared

end Level

/-- Names in the place of a command. -/
def commandNames : List String := ["eval", "check", "help"]

inductive Word where
  | separator
  | long (name : String) (value : Option String)
  | short (letters : List Char)
  | plain (text : String)
  deriving DecidableEq

/-- Two dashes begin a name, which may go on with an equals sign and a value; one dash begins some
letters. A dash alone is a plain word. -/
def Word.ofString (s : String) : Word :=
  match s.toList with
  | ['-', '-'] => separator
  | '-' :: '-' :: cs =>
    let name := String.ofList (cs.takeWhile (· != '='))
    match cs.dropWhile (· != '=') with
    | _ :: value => long name (some (String.ofList value))
    | [] => long name none
  | '-' :: c :: cs => short (c :: cs)
  | _ => plain s

/-- The options of one level as they are read. One that takes a value waits for the next word, and
counts as given only when another option or the end follows. -/
structure Scan where
  given : List (Parameter × String) := []
  pending : Option (Parameter × Option String) := none

namespace Scan

def has (s : Scan) (p : Parameter) : Bool := s.given.any (·.1 = p)

def value? (s : Scan) (p : Parameter) : Option String := (s.given.find? (·.1 = p)).map (·.2)

def give (s : Scan) (p : Parameter) (value : String) : Except UsageError Scan :=
  if s.has p then .error .repeated
  else if p.takesValue && value.isEmpty then .error .missingValue
  else .ok { s with given := s.given ++ [(p, value)] }

def settle (s : Scan) : Except UsageError Scan :=
  match s.pending with
  | none => .ok s
  | some (_, none) => .error .missingValue
  | some (p, some value) => give { s with pending := none } p value

def flag (s : Scan) (p : Parameter) : Except UsageError Scan := do
  let s ← s.settle
  match p with
  | .help => .error .helpRequested
  | .version => .error .versionRequested
  | p => s.give p ""

/-- An option whose value is the next word. -/
def await (s : Scan) (p : Parameter) : Except UsageError Scan := do
  let s ← s.settle
  return { s with pending := some (p, none) }

/-- An option with its value in one word. -/
def attached (s : Scan) (p : Parameter) (value : String) : Except UsageError Scan := do
  let s ← s.settle
  s.give p value

def long (level : Level) (s : Scan) (name : String) (value : Option String) :
    Except UsageError Scan :=
  match level.parameters.find? (·.long = name) with
  | none => .error .unknownArgument
  | some p =>
    match p.takesValue, value with
    | true, some value => s.attached p value
    | true, none => s.await p
    | false, some _ => .error .unexpectedValue
    | false, none => s.flag p

/-- Letters in turn. What follows the letter of an option that takes a value is its value, with or
without an equals sign. -/
def short (level : Level) : List Char → Scan → Except UsageError Scan
  | [], s => .ok s
  | c :: cs, s =>
    match level.parameters.find? (·.short? = some c) with
    | none => .error .unknownArgument
    | some p =>
      if p.takesValue then
        match cs with
        | [] => s.await p
        | '=' :: value => s.attached p (String.ofList value)
        | value => s.attached p (String.ofList value)
      else
        match s.flag p with
        | .ok s => short level cs s
        | .error e => .error e

/-- A plain word that is the value of no option. -/
def stray : Level → UsageError
  | .program => .unknownCommand
  | _ => .unknownArgument

/-- Reads options up to the name of a command, and gives that name with the words after it. After
the separator there may be no word at all. -/
def words (level : Level) : List String → Scan → Except UsageError (Scan × List String)
  | [], s => .ok (s, [])
  | w :: ws, s =>
    match s.pending, Word.ofString w with
    | _, .separator =>
      match ws with
      | [] => .ok (s, [])
      | next :: _ =>
        .error (if commandNames.contains next then .unknownArgument else stray level)
    | _, .long name value =>
      match s.long level name value with
      | .ok s => words level ws s
      | .error e => .error e
    | _, .short letters =>
      match short level letters s with
      | .ok s => words level ws s
      | .error e => .error e
    | some (p, none), .plain value => words level ws { s with pending := some (p, some value) }
    | _, .plain name =>
      if level = .program && commandNames.contains name then .ok (s, name :: ws)
      else .error (stray level)

/-- All the words of a command, with the file that it is to work on. -/
def command (level : Level) (ws : List String) : Except UsageError (String × Scan) := do
  let (s, _) ← words level ws {}
  let s ← s.settle
  match s.value? .file with
  | some file => return (file, s)
  | none => .error .missingFile

end Scan

def defaultConfig : String := "patr.toml"

/-- An option on both levels counts once; the command's value goes first. -/
def invocation (top sub : Scan) (command : Command) : Invocation where
  verbose := top.has .verbose || sub.has .verbose
  quiet := top.has .quiet || sub.has .quiet
  jsonMode := top.has .jsonMode || sub.has .jsonMode
  config := ((sub.value? .config).or (top.value? .config)).getD defaultConfig
  command

/-- What asking for help with some commands leads to. No command has commands of its own. -/
def helpOn : List String → UsageError
  | [] => .helpRequested
  | [name] => if commandNames.contains name then .helpRequested else .unknownCommand
  | _ => .unknownCommand

end CommandLine

open CommandLine in
/-- The words of a command are judged before the options ahead of it. -/
def Invocation.ofArguments (args : List String) : Except UsageError Invocation := do
  let (top, rest) ← Scan.words .program args {}
  match rest with
  | [] =>
    let top ← top.settle
    .error (if top.given.isEmpty then .nothingGiven else .missingCommand)
  | "eval" :: ws =>
    let (file, sub) ← Scan.command .eval ws
    let top ← top.settle
    return invocation top sub (.eval file (sub.has .noQuickCheck) (sub.has .wildcards))
  | "check" :: ws =>
    let (file, sub) ← Scan.command .check ws
    let top ← top.settle
    return invocation top sub (.check file)
  | _ :: names => .error (helpOn names)

end FeatureLogic
