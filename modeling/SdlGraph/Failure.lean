import SdlGraph.Diagnostic.Basic
import SdlGraph.Files.System

/-!
# Failures and their reports

What can keep a schema from being shown: a file that cannot be read or is no schema file, a text
without content, a text with problems, or a configuration that is missing or malformed. A failure is
reported as one item, or as one item for each problem of the text.
-/

namespace SdlGraph

/-- What keeps a schema from being shown. -/
inductive Failure where
  /-- A file cannot be read. -/
  | io (fault : IoFault)
  /-- The schema text has problems. -/
  | schema (problems : List (Diagnostic Span))
  /-- A file has no extension of schema files. -/
  | unsupportedFile (path : String)
  /-- The text is blank. -/
  | emptySource
  /-- A configuration file that was asked for is missing. -/
  | missingConfig (path : String)
  /-- The configuration does not follow its format. -/
  | malformedConfig
  deriving Repr

/-- A label of a report, as a byte offset and a length. -/
structure ReportLabel where
  /-- The remark. -/
  text : String
  /-- Offset of the first byte. -/
  offset : Nat
  /-- Number of bytes. -/
  length : Nat
  /-- Whether this is where the problem lies. -/
  isPrimary : Bool
  deriving DecidableEq, Repr

/-- A failure or a problem, ready to be shown. -/
structure Report where
  /-- The code shown with it. -/
  code : Option String
  /-- What is wrong. -/
  message : String
  /-- How to mend it. -/
  help : Option String
  /-- What lies behind it. -/
  cause : Option String
  /-- The places it points at in the schema text; none if it points at no place. -/
  labels : Option (List ReportLabel)
  /-- Whether it comes with the schema text. -/
  hasSource : Bool
  deriving DecidableEq, Repr

/-- The report of a problem of the schema text. -/
def Diagnostic.report (problem : Diagnostic Span) : Report where
  code := problem.code.map (·.text)
  message := problem.message
  help := problem.help
  cause := none
  labels :=
    if problem.labels.isEmpty then none
    else some (problem.labels.map fun label =>
      ⟨label.message, label.place.start, label.place.length, label.isPrimary⟩)
  hasSource := true

namespace Failure

/-- What is wrong, in one line. -/
def message : Failure → String
  | io fault => "I/O error: " ++ fault.message
  | schema problems => Diagnostic.summary problems
  | unsupportedFile path =>
    "Unsupported file `" ++ path ++ "`: expected a .graphql or .gql file"
  | emptySource => "Please provide a GraphQL schema"
  | missingConfig path => "Configuration error: Missing configuration file: " ++ path
  | malformedConfig => "Configuration error: Failed to parse TOML configuration"

/-- The code under which a failure is reported. -/
def code? : Failure → Option String
  | io _ => some "schemascope::io"
  | schema _ => none
  | unsupportedFile _ => some "schemascope::unsupported_file"
  | emptySource => some "schemascope::empty_source"
  | missingConfig _ => some "schemascope::config"
  | malformedConfig => some "schemascope::config"

/-- How to mend a failure. -/
def help? : Failure → Option String
  | unsupportedFile _ => some "choose a file ending in .graphql or .gql"
  | emptySource => some "paste SDL such as `type Query \x7b ping: String \x7d`"
  | _ => none

/-- What lies behind a failure. -/
def cause? : Failure → Option String
  | io fault => some fault.message
  | _ => none

/-- The reports of a failure. -/
def reports (failure : Failure) : List Report :=
  match failure with
  | schema problems => problems.map Diagnostic.report
  | _ => [⟨failure.code?, failure.message, failure.help?, failure.cause?, none, false⟩]

end Failure

end SdlGraph
