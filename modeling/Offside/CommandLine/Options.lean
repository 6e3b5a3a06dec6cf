import Offside.Config
import Offside.Run

/-!
The options of the command line. Arguments are read from left to right; a value may stand
behind its option as the next argument, behind an equals sign, or, for an option of one
letter, right behind the letter. What does not fit is a usage error, and so is an option
given twice, unless it may be repeated.
-/

namespace Offside.CommandLine

inductive Flag
  | lexemes
  | output
  | spaces
  | maxDepth
  | verbose
  | help
  | version
  deriving DecidableEq, Repr

namespace Flag

def ofLong? : String → Option Flag
  | "lexemes" => some lexemes
  | "output" => some output
  | "spaces" => some spaces
  | "max-depth" => some maxDepth
  | "verbose" => some verbose
  | "help" => some help
  | "version" => some version
  | _ => none

def ofShort? : Char → Option Flag
  | 'o' => some output
  | 'v' => some verbose
  | 'h' => some help
  | 'V' => some version
  | _ => none

def takesValue : Flag → Bool
  | output | spaces | maxDepth => true
  | _ => false

end Flag

inductive Stop
  | usage
  | help
  | version
  deriving DecidableEq, Repr

structure Draft where
  file : Option String := none
  lexemes : Bool := false
  output : Option String := none
  spaces : Option Nat := none
  maxDepth : Option Nat := none
  deriving DecidableEq, Repr

def number? (text : String) : Option Nat :=
  let digits := match text.toList with
    | '+' :: digits => digits
    | digits => digits
  if digits.isEmpty || !digits.all Char.isDigit then none
  else
    let n := Nat.ofDigitChars 10 digits 0
    if n < UInt64.size then some n else none

namespace Draft

def addFile (d : Draft) (path : String) : Except Stop Draft :=
  if d.file.isSome ∨ path = "" then .error .usage else .ok { d with file := some path }

def set (d : Draft) : Flag → Except Stop Draft
  | .lexemes => if d.lexemes then .error .usage else .ok { d with lexemes := true }
  | .verbose => .ok d
  | .help => .error .help
  | .version => .error .version
  | .output | .spaces | .maxDepth => .error .usage

def give (d : Draft) (o : Flag) (value : String) : Except Stop Draft :=
  match o, number? value with
  | .output, _ =>
    if d.output.isSome ∨ value = "" then .error .usage
    else .ok { d with output := some value }
  | .spaces, some n =>
    if d.spaces.isSome then .error .usage else .ok { d with spaces := some n }
  | .maxDepth, some n =>
    if d.maxDepth.isSome then .error .usage else .ok { d with maxDepth := some n }
  | _, _ => .error .usage

/-- Options of one letter in one argument, and the one that still lacks its value. -/
def letters (d : Draft) : List Char → Except Stop (Draft × Option Flag)
  | [] => .ok (d, none)
  | c :: rest =>
    match Flag.ofShort? c with
    | none => .error .usage
    | some o =>
      if o.takesValue then
        match rest with
        | [] => .ok (d, some o)
        | '=' :: value | value => do return (← d.give o (String.ofList value), none)
      else do (← d.set o).letters rest

/-- An option by its long name, and itself if it still lacks its value. -/
def word (d : Draft) (cs : List Char) : Except Stop (Draft × Option Flag) :=
  match Flag.ofLong? (String.ofList (cs.takeWhile (· != '='))), cs.dropWhile (· != '=') with
  | none, _ => .error .usage
  | some o, [] => if o.takesValue then .ok (d, some o) else do return (← d.set o, none)
  | some o, _ :: value =>
    if o.takesValue then do return (← d.give o (String.ofList value), none)
    else .error .usage

end Draft

/-- A dash alone is a value, with something behind it an option. -/
def isOption (arg : String) : Bool :=
  match arg.toList with
  | '-' :: _ :: _ => true
  | _ => false

/-- All arguments; behind two dashes there are no options. -/
def Draft.read (d : Draft) : List String → Except Stop Draft
  | [] => .ok d
  | arg :: rest =>
    if arg = "--" then rest.foldlM addFile d
    else if isOption arg then
      match (match arg.toList.tail with
        | '-' :: name => d.word name
        | cs => d.letters cs), rest with
      | .error stop, _ => .error stop
      | .ok (d, none), rest => d.read rest
      | .ok (_, some _), [] => .error .usage
      | .ok (d, some o), value :: rest =>
        if isOption value then .error .usage else do (← d.give o value).read rest
    else do (← d.addFile arg).read rest

structure Options where
  file : String
  output : Output
  destination : Option String
  spaces : Option Nat
  maxDepth : Nat
  deriving DecidableEq, Repr

def parse (args : List String) : Except Stop Options := do
  let d ← ({} : Draft).read args
  match d.file with
  | none => .error .usage
  | some file =>
    return { file
             output := if d.lexemes then .lexemes else .tree
             destination := d.output
             spaces := d.spaces
             maxDepth := d.maxDepth.getD ({} : Config).maxDepth }

end Offside.CommandLine
