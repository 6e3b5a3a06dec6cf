import Offside.CommandLine.Folder
import Offside.CommandLine.Options
import Offside.Report

/-!
The command line: what a run with some arguments prints, ends with, and leaves in the
working directory.
-/

namespace Offside.CommandLine

structure Outcome where
  code : Nat
  output : String := ""
  error : Option String := none
  deriving DecidableEq, Repr

namespace Outcome

def failed (error : String) : Outcome :=
  ⟨1, "", some error⟩

/-- The first line of what was told of a failure. It may break off within the name of a
file, which can hold any character; a return before the break belongs to the break. -/
def headline (o : Outcome) : Option String :=
  o.error.map fun error =>
    match error.toList.span (· ≠ '\n') with
    | (_, []) => error
    | (line, _) =>
      String.ofList (if line.getLast? = some '\r' then line.dropLast else line)

end Outcome

def version : String := "fridh 0.1.0"

def usage : String := "Usage: fridh [OPTIONS] <FILE>"

def helpText : String :=
  String.join <| List.map (· ++ "\n")
    ["Parses fridh modules and prints their structure",
      "",
      usage,
      "",
      "Arguments:",
      "  <FILE>  The module to process",
      "",
      "Options:",
      "      --lexemes        Print the lexed lines instead of the translated module",
      "  -o, --output <PATH>  Write the output to this file instead of stdout",
      "      --spaces <N>     Indent with this many spaces per level instead of tabs",
      "      --max-depth <N>  Deepest permitted nesting of brackets, blocks and " ++
        "expression trees [default: 128]",
      "  -v, --verbose...     Increase logging verbosity (-v: debug, -vv+: trace)",
      "  -h, --help           Print help",
      "  -V, --version        Print version"]

def Stop.outcome : Stop → Outcome
  | usage => ⟨2, "", none⟩
  | help => ⟨0, helpText, none⟩
  | version => ⟨0, CommandLine.version ++ "\n", none⟩

namespace Options

def config (o : Options) : Config :=
  { indentation := (o.spaces.map .spaces).getD .tabs, maxDepth := o.maxDepth }

/-- A width of nothing is refused before any file is looked at. -/
def check (o : Options) : Except Outcome Unit :=
  if o.spaces = some 0 then .error (.failed "Error: --spaces must be at least 1") else .ok ()

def source (o : Options) : Entry → Except Outcome String
  | .missing => .error (.failed ("Error: File '" ++ o.file ++ "' not found"))
  | .directory => .error (.failed (unreadable .isDirectory))
  | .locked => .error (.failed (unreadable .denied))
  | .file content =>
    match String.fromUTF8? content with
    | some source => .ok source
    | none => .error (.failed (unreadable .notText))
where
  unreadable (e : FileError) : String :=
    "Error reading file '" ++ o.file ++ "': " ++ e.text

def render (o : Options) (source : String) : Except Error String :=
  run o.output o.config (some o.file) source

def unwritable (destination : String) (e : FileError) : Outcome :=
  .failed ("Error writing file '" ++ destination ++ "': " ++ e.text)

def process (o : Options) (found : Entry) : Except Outcome String := do
  o.check
  let source ← o.source found
  match o.render source with
  | .ok text => return text
  | .error e => throw (.failed e.diagnostic.headline)

end Options

def execute (args : List String) (folder : Folder) : Outcome × Folder :=
  match parse args with
  | .error stop => (stop.outcome, folder)
  | .ok o =>
    match o.process (folder.find o.file) with
    | .error outcome => (outcome, folder)
    | .ok text =>
      match o.destination with
      | none => (⟨0, text, none⟩, folder)
      | some path =>
        match folder.write path text.toUTF8 with
        | .ok folder => (⟨0, "", none⟩, folder)
        | .error e => (Options.unwritable path e, folder)

end Offside.CommandLine
