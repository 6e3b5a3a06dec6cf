import Offside.Module.Build

/-!
One source, rendered as its lexemes or as the module they make up.
-/

namespace Offside

inductive Output
  | lexemes
  | tree
  deriving DecidableEq, Repr

/-- The name of a file without its last extension. A name that only begins with a dot has
no extension. -/
def stem (file : String) : String :=
  let cs := file.toList
  match (cs.reverse.dropWhile (· != '.')).tail.reverse with
  | [] => file
  | before => String.ofList before

def components (path : String) : List String :=
  ((path.toList.splitOn '/').map String.ofList).filter fun c => c ≠ "" ∧ c ≠ "."

def moduleName (path : Option String) : String :=
  match (path.bind fun path => (components path).getLast?) with
  | none | some ".." => "main"
  | some file => stem file

def run (output : Output) (config : Config) (file : Option String) (source : String) :
    Except Error String :=
  match output with
  | .lexemes => listing <$> tokenize config.indentation source
  | .tree => do
    let m ← Module.ofSource config (moduleName file) source
    atLine 0 m.text

end Offside
