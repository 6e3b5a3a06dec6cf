import Mathlib
import Offside.Proofs.Checked.Blocks
import Offside.Proofs.Checked.Render
import Offside.Proofs.Checked.Scanned

/-!
The front end with nothing taken for granted: the scanner, the translator and the rendering one
behind another. Main statement: whatever the source, the module's name and the settings, every step
is defined and every loop ends, and what comes out is what the front end is said to give.
-/

namespace Offside.Checked

variable (config : Config) (name source : String)

def lexemes : ExceptT Error Option String :=
  listing <$> Scan.scan config.indentation source

def moduleOf : ExceptT Error Option Module := do
  let lines ← Scan.scan config.indentation source
  let symbols ← ExceptT.mk (Module.translate config name lines)
  return ⟨name, symbols⟩

def tree : ExceptT Error Option String := do
  let m ← moduleOf config name source
  let text ← m.rendering
  return text

theorem moduleOf_eq : moduleOf config name source = some (Module.ofSource config name source) := by
  refine defined_bind (Scan.scan_eq ..) fun lines _ => ?_
  rw [Module.translate_eq]
  change _ = some (Module.ofLines config name lines)
  rw [Module.ofLines]
  cases Module.symbolsOf config name lines <;> rfl

/-- No source makes the front end do what is undefined, or go on for ever. It gives the lexemes, or
the module and then its text, or the error that is found first. -/
theorem frontEnd_defined :
    lexemes config source = some (listing <$> tokenize config.indentation source) ∧
      tree config name source = some (do
        let m ← Module.ofSource config name source
        atLine 0 m.text) := by
  constructor
  · rw [lexemes, Scan.scan_eq]
    cases tokenize config.indentation source <;> rfl
  · refine defined_bind (moduleOf_eq ..) fun m built => ?_
    obtain ⟨text, shown⟩ := Module.text_isOk built
    rw [Module.rendering_eq shown, shown]
    rfl

end Offside.Checked
