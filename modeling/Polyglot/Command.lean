-- SUMMARY: The commands: what each one prints and the status it ends with.
import Polyglot.Command.Arguments
import Polyglot.Diagnostic.Explanation
import Polyglot.Diagnostic.Json
import Polyglot.Listing

/-!
# Commands

A command line is parsed into a `Command`. Given what reading each file led to,
`Command.run` says what the command prints and how it ends. Nothing here reads
a file or prints.
-/

namespace Polyglot

/-! ## Files and outcomes -/

/-- What reading a file led to. -/
inductive FileContent where
  | text (content : List Char)
  | missing
  | forbidden
  | invalidUtf8
  | unreadable (reason : String)
  deriving DecidableEq

/-- The text of a file, or why there is none. -/
def FileContent.text? (path : String) : FileContent → Except String (List Char)
  | .text content => .ok content
  | .missing => .error s!"cannot find file '{path}'"
  | .forbidden => .error s!"permission denied reading '{path}'"
  | .invalidUtf8 => .error s!"'{path}' contains invalid UTF-8 data"
  | .unreadable reason => .error s!"error reading '{path}': {reason}"

/-- How a command ends: its status and what it wrote to either stream. -/
structure Outcome where
  status : Nat
  out : String
  err : String
  deriving DecidableEq

/-! ## Command lines -/

/-- What a command line asks for. -/
inductive Command where
  /-- List the fragments of documents. -/
  | scan (arguments : ScanArguments)
  /-- Report the problems of documents. -/
  | check (arguments : CheckArguments)
  /-- List the minimal units of a document. -/
  | split (file : String) (options : Options)
  /-- Explain a code. -/
  | explain (code : String)
  | explainNothing
  | help
  | version
  | unknown (name : String)
  /-- A command with wrong arguments: what is wrong, and how it is used. -/
  | misused (message usage : String)
  deriving DecidableEq

namespace Command

/-- How documents are listed by fragments. -/
def scanUsage : String := "chtl scan <file.chtl>... [options]"

/-- How documents are checked. -/
def checkUsage : String := "chtl check <file.chtl>... [options]"

/-- How a document is listed by units. -/
def splitUsage : String := "chtl split <file.chtl>"

/-- What a command line asks for. -/
def parse : List String → Command
  | [] => .help
  | name :: arguments =>
    match name with
    | "scan" =>
      match ScanArguments.parse arguments with
      | .ok a => .scan a
      | .error e => .misused e.message scanUsage
    | "check" =>
      match CheckArguments.parse arguments with
      | .ok a => .check a
      | .error e => .misused e.message checkUsage
    | "split" =>
      match ScanArguments.parse arguments with
      | .ok ⟨[file], options⟩ => .split file options
      | .ok _ => .misused "split takes exactly one file" splitUsage
      | .error e => .misused e.message splitUsage
    | "--explain" | "explain" =>
      match arguments with
      | [] => .explainNothing
      | code :: _ => .explain code
    | "help" | "--help" | "-h" => .help
    | "version" | "--version" | "-V" => .version
    | _ => .unknown name

/-- The files that a command reads, in order. -/
def files : Command → List String
  | .scan a => a.files
  | .check a => a.files
  | .split file _ => [file]
  | _ => []

/-! ## Documents -/

/-- List documents one after the other. The ones that cannot be listed are
reported apart, and make the command fail. -/
def list (listing : String → Scan → String) (options : Options) (read : String → FileContent)
    (files : List String) : Outcome :=
  let results := files.map fun path =>
    ((read path).text? path).bind (Listing.ofText listing path options)
  let out := results.map fun | .ok text => text | .error _ => ""
  let err := results.map fun | .ok _ => "" | .error message => s!"error: {message}\n"
  ⟨if results.all Except.isOk then 0 else 1, String.join out, String.join err⟩

/-- The text of a document and its diagnostics. A file that cannot be read has
no text and one diagnostic. -/
def checkFile (options : Options) (read : String → FileContent) (path : String) :
    List Char × List Diagnostic :=
  match (read path).text? path with
  | .ok text => (text, diagnose path options text)
  | .error message =>
    ([], [{ Diagnostic.blank .invalidInput .error with message := message, file := some path }])

/-- The report on some documents with their diagnostics, for a reader. -/
def checkReport (colors : Bool) (documents : List (List Char × List Diagnostic)) : String :=
  let (errors, warnings) := Diagnostic.tally (documents.flatMap Prod.snd)
  String.join (documents.map fun (text, ds) =>
    String.join (ds.map (Terminal.render colors (some text)))) ++
    Terminal.summary colors errors warnings

/-- Report the problems of documents. An error makes the command fail. -/
def checkAll (isTerminal : Bool) (a : CheckArguments) (read : String → FileContent) : Outcome :=
  let documents := a.files.map (checkFile a.options read)
  let failed := (documents.flatMap Prod.snd).any Diagnostic.isError
  let status := if failed then 1 else 0
  if a.json then ⟨status, Json.report (documents.flatMap Prod.snd), ""⟩
  else
    let count := Terminal.counted a.files.length "file"
    let out := if failed then "" else s!"OK: {count} scanned\n"
    ⟨status, out, checkReport (a.color.usesColors isTerminal) documents⟩

/-! ## Help -/

/-- The overview of the commands. -/
def overview : String := String.join (List.map (· ++ "\n") [
  "CHTL unified source scanner",
  "",
  "Usage: chtl <command> [options]",
  "",
  "Commands:",
  "  scan <files...>      List the fragments of each document",
  "  check <files...>     Report scan errors and warnings",
  "  split <file>         List the minimal units of a document",
  "  explain <code>       Explain an error code (e.g., E0002)",
  "  help                 Show this help message",
  "  version              Show version information",
  "",
  "Scan options (scan, check, split):",
  "  --no-aggregate            Keep adjacent same-target fragments apart",
  "  --no-split-statements     Keep local script bodies whole",
  "  --no-generator-comments   Treat `--` as ordinary text",
  "  --global-root             Top-level style/script blocks are global",
  "  --stitch-window=<bytes>   Boundary stitch window (default 64)",
  "",
  "Check options:",
  "  --color=<mode>      auto (default), always, never",
  "  --json              Machine-readable output on stdout",
  "",
  "Logging:",
  "  RUST_LOG=chtl_scanner=debug chtl scan page.chtl",
  "",
  "Examples:",
  "  chtl scan index.chtl",
  "  chtl scan a.chtl b.chtl --no-aggregate",
  "  chtl check src/*.chtl --json",
  "  chtl split index.chtl",
  "  chtl explain E0001"])

/-- Explain a code. -/
def explainCode (name : String) : Outcome :=
  match Code.ofName? name with
  | some code => ⟨0, code.explanation ++ "\n", ""⟩
  | none =>
    let known := String.intercalate ", " (Code.all.map Code.name)
    ⟨1, "", s!"Unknown error code: {name}\n\n" ++
      "Codes have the format EXXXX (errors) or WXXXX (warnings) where X is a digit.\n" ++
      s!"Known codes: {known}\n"⟩

/-! ## Running -/

/-- What a command prints and how it ends. `isTerminal` says whether its
reports go to a terminal. -/
def run (isTerminal : Bool) (read : String → FileContent) : Command → Outcome
  | .scan a => list Listing.fragments a.options read a.files
  | .check a => checkAll isTerminal a read
  | .split file options => list Listing.units options read [file]
  | .explain code => explainCode code
  | .explainNothing =>
    ⟨1, "", "Usage: chtl explain <ERROR_CODE>\nExample: chtl explain E0002\n"⟩
  | .help => ⟨0, overview, ""⟩
  | .version => ⟨0, "chtl 0.1.0\n", ""⟩
  | .unknown name => ⟨1, overview, s!"Unknown command: {name}\n\n"⟩
  | .misused message usage => ⟨1, "", s!"error: {message}\nUsage: {usage}\n"⟩

end Command

end Polyglot
