import Offside.CommandLine

/-!
The program: the command line on the files of the system.
-/

namespace Offside.CommandLine

def look (path : String) : IO Entry := do
  try return .file (← IO.FS.readBinFile path)
  catch
    | .inappropriateType _ 21 _ => return .directory
    | .permissionDenied .. => return .locked
    | _ => return .missing

def refusal : IO.Error → FileError
  | .inappropriateType _ 20 _ => .notDirectory
  | .inappropriateType .. => .isDirectory
  | .permissionDenied .. => .denied
  | .invalidArgument _ 36 _ => .nameTooLong
  | _ => .notFound

def store (path text : String) : IO (Option FileError) := do
  try
    IO.FS.writeFile path text
    return none
  catch e => return some (refusal e)

def announce (outcome : Outcome) : IO UInt32 := do
  IO.print outcome.output
  if let some error := outcome.error then IO.eprintln error
  return outcome.code.toUInt32

def program (args : List String) : IO UInt32 := do
  match parse args with
  | .error stop =>
    if stop = .usage then IO.eprintln usage
    announce stop.outcome
  | .ok o =>
    match o.process (← look o.file) with
    | .error outcome => announce outcome
    | .ok text =>
      match o.destination with
      | none => announce ⟨0, text, none⟩
      | some path =>
        match ← store path text with
        | none => return 0
        | some e => announce (Options.unwritable path e)

end Offside.CommandLine

def main (args : List String) : IO UInt32 :=
  Offside.CommandLine.program args
