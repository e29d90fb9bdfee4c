import QueryAudit.Document.Load
import QueryAudit.Report
import QueryAudit.Toml.Settings

/-!
# QueryAudit.CommandLine

The command: its arguments, and what it writes and answers for a given content
of the file system.

* `parseFrom_help` — asking for help ends the reading of arguments.
-/

namespace QueryAudit.CommandLine

/-! ## arguments -/

/-- What the arguments ask for. -/
structure Options where
  config : Option String
  format : OutputFormat
  files : List String
deriving DecidableEq, Repr

/-- What the command is to do. -/
inductive Command where
  | help
  | audit (options : Options)
deriving DecidableEq, Repr

/-- Why arguments cannot be understood. -/
inductive UsageError where
  | missingConfig
  | missingFormat
  | unknownFormat (cause : UnknownFormat)
  | unknownOption (name : String)
  | noFiles
deriving DecidableEq, Repr

/-- What is wrong with the arguments. -/
def UsageError.message : UsageError → String
  | .missingConfig => "--config needs a file"
  | .missingFormat => "--format needs a value"
  | .unknownFormat cause => cause.message
  | .unknownOption name => "Unknown option: " ++ name
  | .noFiles => "no unit files specified"

/-- Read arguments from left to right on top of what has been read.  Of an option
given twice the last one counts. -/
def parseFrom (options : Options) : List String → Except UsageError Command
  | [] => if options.files.isEmpty then .error .noFiles else .ok (.audit options)
  | "--config" :: rest =>
    match rest with
    | [] => .error .missingConfig
    | path :: rest => parseFrom { options with config := some path } rest
  | "--format" :: rest =>
    match rest with
    | [] => .error .missingFormat
    | name :: rest =>
      match OutputFormat.ofName name with
      | .error cause => .error (.unknownFormat cause)
      | .ok format => parseFrom { options with format } rest
  | arg :: rest =>
    if arg = "--help" || arg = "-h" then .ok .help
    else if arg.toList.head? = some '-' then .error (.unknownOption arg)
    else parseFrom { options with files := options.files ++ [arg] } rest

/-- What the arguments ask for. -/
def parse (args : List String) : Except UsageError Command :=
  parseFrom ⟨none, .human, []⟩ args

/-- How the command is used. -/
def usage : String :=
  "Usage: xquery-lint [--config <file>] [--format human|json] <unit files...>\n"
    ++ "\n"
    ++ "Unit files are JSON unit documents or tree notation files (.xqt).\n"
    ++ "Set RUST_LOG to control logging (default: warn).\n"

/-! ## the command -/

/-- What the command writes and whether it succeeds. -/
structure Outcome where
  success : Bool
  output : String
  errors : String
deriving DecidableEq, Repr

/-- The content of a file, if it can be read. -/
abbrev Files := String → Option ByteArray

/-- Why the settings cannot be used. -/
inductive ConfigError where
  /-- The file cannot be read, or is no UTF-8 text. -/
  | unreadable (path : String)
  /-- The text is no TOML document of settings. -/
  | invalid
deriving DecidableEq, Repr

/-- What is wrong with the settings. -/
def ConfigError.message : ConfigError → String
  | .unreadable path => "failed to read " ++ path
  | .invalid => "invalid configuration: not a document of settings"

/-- The settings in a file. -/
def loadConfig (files : Files) (path : String) : Except ConfigError Config :=
  match (files path).bind String.fromUTF8? with
  | none => .error (.unreadable path)
  | some content =>
    match Toml.config? content with
    | none => .error .invalid
    | some config => .ok config

/-- The settings that the options choose. -/
def chosenConfig (files : Files) (options : Options) : Except ConfigError Config :=
  match options.config with
  | none => .ok .standard
  | some path => loadConfig files path

/-- The units in the files that give one; the others are passed over. -/
def loadUnits (files : Files) (paths : List String) : List SourceUnit :=
  paths.filterMap fun path => (Document.load path (files path)).toOption

/-- Whether a report has nothing to say. -/
def isClean (r : UnitReport) : Bool := !r.failed && r.issues.isEmpty

/-- The written form of reports in a format. -/
def writeReports (format : OutputFormat) (registry : Registry) (reports : List UnitReport) :
    String :=
  match format with
  | .human => Report.human registry reports
  | .json => Report.json registry reports ++ "\n"

/-- Analyse the chosen files. -/
def audit (files : Files) (options : Options) : Outcome :=
  match chosenConfig files options with
  | .error e => ⟨false, "", "Error loading configuration: " ++ e.message ++ "\n"⟩
  | .ok config =>
    match Analyzer.ofRegistry config .standard with
    | .error e => ⟨false, "", "Invalid configuration: " ++ e.message ++ "\n"⟩
    | .ok analyzer =>
      let units := loadUnits files options.files
      let reports := analyzer.analyze units
      ⟨units.length == options.files.length && reports.all isClean,
        writeReports options.format analyzer.registry reports, ""⟩

/-- Run the command with arguments. -/
def run (files : Files) (args : List String) : Outcome :=
  match parse args with
  | .error e => ⟨false, usage, "Error: " ++ e.message ++ "\n"⟩
  | .ok .help => ⟨true, usage, ""⟩
  | .ok (.audit options) => audit files options

/-- Asking for help ends the reading of arguments. -/
theorem parseFrom_help (options : Options) (rest : List String) :
    parseFrom options ("--help" :: rest) = .ok .help := by
  simp [parseFrom]

end QueryAudit.CommandLine
