import Offside.Error

/-!
Where an error is shown in its source. Spans and positions count characters from the
start of the source; physical lines and columns count from 1.
-/

namespace Offside

structure Span where
  start : Nat
  stop : Nat
  deriving DecidableEq, Repr

namespace Span

def length (s : Span) : Nat :=
  s.stop - s.start

/-- The physical line with that number in a text that starts at `offset`, without its
break; the end of the text if there is no such line. -/
def ofLine (offset : Nat) : Nat → List Char → Span
  | 1, cs => ⟨offset, offset + (cs.takeWhile (· != '\n')).length⟩
  | _, [] => ⟨offset, offset⟩
  | line, c :: cs => ofLine (offset + 1) (if c = '\n' then line - 1 else line) cs

end Span

def lineSpan (source : String) (line : Nat) : Span :=
  .ofLine 0 line source.toList

/-- Line and column of an offset. A break at the very end opens no further line, so the end
of the source lies on its last line. -/
def position (source : String) (offset : Nat) : Nat × Nat :=
  let cs := source.toList
  let before := cs.take offset
  let before := if before = cs ∧ cs.getLast? = some '\n' then cs.dropLast else before
  let column := (before.reverse.takeWhile (· != '\n')).length
  (1 + before.count '\n', 1 + (offset - (before.length - column)))

structure Report where
  headline : String
  colour : Nat
  location : Option String
  underline : Option Nat
  note : Option String
  deriving DecidableEq, Repr

/-- An empty source has no place to point to, and advice is shown with the place. -/
def Diagnostic.report (d : Diagnostic) (source : String) (file : Option String) : Report :=
  let span := lineSpan source d.line
  let place := position source span.start
  { headline := d.headline
    colour := d.kind.colour
    location :=
      if source = "" then none
      else
        some (file.getD "<input>" ++ ":" ++ toString place.1 ++ ":" ++ toString place.2)
    underline := if span.length = 0 then none else some span.length
    note := if source = "" then none else d.help.map ("help: " ++ ·) }

end Offside
