import Mathlib
import Offside.Module.Build
import Offside.Proofs.Scan.Respaced

/-!
Line endings. With a carriage return before every line break a source is scanned to the same lines,
whether or not it had some before, and fails at the same place in the same way. One message can
differ: a backslash at the end of a line is now in front of the carriage return.
-/

namespace Offside

namespace Scan

variable {style : Indentation} {cs : List Char}

def returned (c : Char) : List Char :=
  if c = '\n' then ['\r', '\n'] else [c]

def withReturns (cs : List Char) : List Char :=
  cs.flatMap returned

section Returns

theorem withReturns_cons {c : Char} (ne : c ≠ '\n') (cs : List Char) :
    withReturns (c :: cs) = c :: withReturns cs := by
  rw [withReturns, List.flatMap_cons, returned, if_neg ne]
  rfl

theorem indent_withReturns (cs : List Char) :
    (withReturns cs).takeWhile isIndent = cs.takeWhile isIndent ∧
      afterIndent (withReturns cs) = withReturns (afterIndent cs) := by
  induction cs with
  | nil => exact ⟨rfl, rfl⟩
  | cons c cs ih =>
    by_cases newline : c = '\n'
    · subst newline
      exact ⟨rfl, rfl⟩
    · rw [withReturns_cons newline]
      by_cases indent : isIndent c = true
      · simpa [afterIndent, indent] using ih
      · simp [afterIndent, indent, withReturns_cons newline]

theorem level_withReturns (style : Indentation) (cs : List Char) :
    level style (withReturns cs) = level style cs := by
  obtain ⟨indent, after⟩ := indent_withReturns cs
  rw [level, level, indent, after]
  cases afterIndent cs with
  | nil => rfl
  | cons c rest =>
    by_cases newline : c = '\n'
    · subst newline
      rfl
    · rw [withReturns_cons newline]
      rfl

theorem respaced_withReturns (style : Indentation) (cs : List Char) :
    Respaced ⟨style, style, True⟩ cs (withReturns cs) := by
  induction cs with
  | nil => exact .nil
  | cons c cs ih =>
    by_cases newline : c = '\n'
    · subst newline
      exact .return_ trivial (level_withReturns style cs) (ih.run (by decide) (by decide)).2
    · rw [withReturns_cons newline]
      exact ih.cons newline

end Returns

theorem linesFrom_withReturns (style : Indentation) (number : Nat) (cs : List Char) :
    Alike (SameError ⟨style, style, True⟩) Eq (linesFrom style number cs)
      (linesFrom style number (withReturns cs)) := by
  have within := (respaced_withReturns style cs).run (p := isIndent) (by decide) (by decide)
  exact Respaced.linesFrom number (level_withReturns style cs) (within.2.remainder number)

end Scan

open Scan

/-- The same source with a carriage return before every line break. -/
def withReturns (source : String) : String :=
  String.ofList (Scan.withReturns source.toList)

/-- The style of line endings does not matter: the same lines are found, or the same error on the
same line, and so the same module. Only the character can differ that a backslash is in front of. -/
theorem tokenize_withReturns (config : Config) (source : String) :
    (∀ lines, tokenize config.indentation source = .ok lines →
      tokenize config.indentation (withReturns source) = .ok lines) ∧
    (∀ e, tokenize config.indentation source = .error e →
      ∃ e', tokenize config.indentation (withReturns source) = .error e' ∧
        e'.diagnostic.kind = e.diagnostic.kind ∧ e'.diagnostic.line = e.diagnostic.line ∧
        (e'.diagnostic = e.diagnostic ∨
          e.fault = .invalidEscape '\n' ∧ e'.fault = .invalidEscape '\r')) ∧
    ∀ name m, Module.ofSource config name source = .ok m →
      Module.ofSource config name (withReturns source) = .ok m := by
  have alike : Alike (SameError ⟨config.indentation, config.indentation, True⟩) Eq
      (tokenize config.indentation source) (tokenize config.indentation (withReturns source)) := by
    rw [tokenize, tokenize, withReturns, String.toList_ofList]
    exact linesFrom_withReturns _ 1 source.toList
  refine ⟨fun lines ok => ?_, fun e fails => ?_, fun name m ok => ?_⟩
  · obtain ⟨_, ok', rfl⟩ := alike.ok_of ok
    exact ok'
  · obtain ⟨⟨line, fault⟩, fails', rfl, same⟩ := alike.error_of fails
    refine ⟨_, fails', ?_⟩
    obtain rfl | ⟨-, before, rfl⟩ := sameFault_iff.1 same
    · exact ⟨rfl, rfl, .inl rfl⟩
    · rw [Error.diagnostic, Error.diagnostic, before]
      exact ⟨rfl, rfl, .inr ⟨rfl, rfl⟩⟩
  · obtain ⟨lines, scanned, built⟩ := bind_eq_ok.1 ok
    obtain ⟨_, scanned', rfl⟩ := alike.ok_of scanned
    exact bind_eq_ok.2 ⟨_, scanned', built⟩

theorem tokenize_withReturns_comment :
    let source := "if a\n\n\tb;; \r\n\t;; + 1\n"
    (tokenize .tabs source = .ok [⟨1, 0, [.ofWord "if", .ofWord "a"]⟩,
        ⟨3, 1, [.ofWord "b", ⟨.operator .add, none⟩, .ofLiteral (.int 1)]⟩] ∧
      tokenize .tabs "\n1." = .error ⟨2, .trailingDot⟩ ∧
      tokenize .tabs "\"\\\n\"" = .error ⟨1, .invalidEscape '\n'⟩ ∧
      Module.ofSource {} "m" source = .ok ⟨"m", ⟨#[⟨"m", .function, none, [], some ⟨[],
        [.if_ (.ident ⟨"a", .none⟩) [.expr (.binary .add (.ident ⟨"b", .none⟩)
          (.literal (.int 1))) 3] 1]⟩⟩]⟩⟩) ∧
    withReturns source = "if a\r\n\r\n\tb;; \r\r\n\t;; + 1\r\n" ∧
    tokenize .tabs (withReturns source) = tokenize .tabs source ∧
    (∃ e, tokenize .tabs (withReturns "\n1.") = .error e ∧ e.diagnostic.line = 2) ∧
    (∃ e, tokenize .tabs (withReturns "\"\\\n\"") = .error e ∧
      e.diagnostic.kind = .lexical ∧ e.diagnostic.line = 1) ∧
    Module.ofSource {} "m" (withReturns source) = Module.ofSource {} "m" source := by
  intro source
  have scanned : tokenize .tabs source = .ok [⟨1, 0, [.ofWord "if", .ofWord "a"]⟩,
      ⟨3, 1, [.ofWord "b", ⟨.operator .add, none⟩, .ofLiteral (.int 1)]⟩] := by cbv
  have dot : tokenize .tabs "\n1." = .error ⟨2, .trailingDot⟩ := by cbv
  have escape : tokenize .tabs "\"\\\n\"" = .error ⟨1, .invalidEscape '\n'⟩ := by cbv
  have built : Module.ofSource {} "m" source = .ok ⟨"m", ⟨#[⟨"m", .function, none, [], some ⟨[],
      [.if_ (.ident ⟨"a", .none⟩) [.expr (.binary .add (.ident ⟨"b", .none⟩)
        (.literal (.int 1))) 3] 1]⟩⟩]⟩⟩ := by cbv
  obtain ⟨e, dotted, -, onSecond, -⟩ := (tokenize_withReturns {} "\n1.").2.1 _ dot
  obtain ⟨e', escaped, kind, onFirst, -⟩ := (tokenize_withReturns {} "\"\\\n\"").2.1 _ escape
  refine ⟨⟨scanned, dot, escape, built⟩, by decide, ?_, ⟨e, dotted, onSecond⟩,
    ⟨e', escaped, kind, onFirst⟩, ?_⟩
  · rw [scanned]
    exact (tokenize_withReturns {} source).1 _ scanned
  · rw [built]
    exact (tokenize_withReturns {} source).2.2 "m" _ built

end Offside
