import Mathlib
import Offside.Proofs.Checked.Parse

/-!
Readings by a cursor and by frames. A call that reads a bracket stands for a frame, and those that
wait for it for the frames around. Main statements: a line is read to its end by either, no count
falls below zero, and both give the same.
-/

namespace Offside.Expr

open Checked

section Simulation

variable (s : Setting) (ws : List Lexeme)

def rest (f : Frame) : Reading (List Measured) :=
  Context.stretch s ws f.context f.closed.reverse f.run.reverse f.lastGroup?
    (f.run.isEmpty && !f.closed.isEmpty)

def whole (frames : State) (vs : List Lexeme) : Except Fault (List Measured) := do
  (← (← Expr.run s frames vs).finish).results s.maxDepth

/-- How the rest of a stretch is read, and what the frames of the line are by then. -/
structure ReadTo (f : Frame) (cursor : Cursor) (r : Except Fault (List Measured))
    (cursor' : Cursor) : Prop where
  depth : cursor'.depth = cursor.depth
  onward : cursor.place ≤ cursor'.place
  failed : ∀ e, r = .error e → ∀ outer, outer.length = cursor.depth →
    (outer = [] ↔ f.context.unclosed? = none) →
    whole s ⟨f, outer⟩ (ws.drop cursor.place) = .error e
  line : ∀ ms, r = .ok ms → cursor.depth = 0 → f.context.unclosed? = none →
    whole s ⟨f, []⟩ (ws.drop cursor.place) = .ok ms
  bracket : ∀ ms, r = .ok ms → f.context.unclosed? ≠ none → ∃ e, wrapped f.context ms = some e ∧
    ∀ g outer, outer.length + 1 = cursor.depth →
      Expr.run s ⟨f, g :: outer⟩ (ws.drop cursor.place) =
        Expr.run s ⟨g.push e, outer⟩ (ws.drop cursor'.place)

def Completes (f : Frame) (cursor : Cursor) : Prop :=
  ∃ r cursor', rest s ws f cursor = some (r, cursor') ∧ ReadTo s ws f cursor r cursor'

variable {s ws} {f g : Frame} {cursor between : Cursor} {l : Lexeme}

theorem run_lexeme (frames : State) (l : Lexeme) (vs : List Lexeme) :
    Expr.run s frames (l :: vs) = step s frames l >>= fun next => Expr.run s next vs := rfl

theorem whole_of_run {frames frames' : State} {vs vs' : List Lexeme}
    (same : Expr.run s frames vs = Expr.run s frames' vs') :
    whole s frames vs = whole s frames' vs' := by
  rw [whole, whole, same]

theorem whole_of_fault {frames : State} {vs : List Lexeme} {e : Fault}
    (stops : Expr.run s frames vs = .error e) : whole s frames vs = .error e := by
  rw [whole, stops]
  rfl

theorem Completes.back (between : Cursor) (context : g.context = f.context)
    (depth : between.depth = cursor.depth)
    (onward : cursor.place ≤ between.place)
    (eq : rest s ws f cursor = rest s ws g between)
    (same : ∀ outer, outer.length = cursor.depth → (outer = [] ↔ f.context.unclosed? = none) →
      Expr.run s ⟨f, outer⟩ (ws.drop cursor.place) =
        Expr.run s ⟨g, outer⟩ (ws.drop between.place))
    (h : Completes s ws g between) : Completes s ws f cursor := by
  obtain ⟨r, cursor', read, reads⟩ := h
  refine ⟨r, cursor', eq.trans read, reads.depth.trans depth, Nat.le_trans onward reads.onward,
    fun e failed outer length line => ?_, fun ms ok top line => ?_, fun ms ok inner => ?_⟩
  · rw [whole_of_run (same outer length line)]
    exact reads.failed e failed outer (length.trans depth.symm) (context ▸ line)
  · rw [whole_of_run (same [] top.symm (iff_of_true rfl line))]
    exact reads.line ms ok (depth.trans top) (context ▸ line)
  · obtain ⟨e, element, frames⟩ := reads.bracket ms ok (context ▸ inner)
    refine ⟨e, context ▸ element, fun g' outer length => ?_⟩
    rw [same (g' :: outer) length (iff_of_false (List.cons_ne_nil _ _) inner)]
    exact frames g' outer (length.trans depth.symm)

theorem Completes.of_failure {e : Fault} (between : Cursor) (depth : between.depth = cursor.depth)
    (onward : cursor.place ≤ between.place)
    (eq : rest s ws f cursor = some (.error e, between))
    (stops : ∀ outer, outer.length = cursor.depth → (outer = [] ↔ f.context.unclosed? = none) →
      whole s ⟨f, outer⟩ (ws.drop cursor.place) = .error e) : Completes s ws f cursor := by
  refine ⟨_, _, eq, depth, onward, fun e' failed => ?_, nofun, nofun⟩
  cases failed
  exact stops

section Lexeme

variable (at_ : ws[cursor.place]? = some l)

include at_

theorem drop_eq : ws.drop cursor.place = l :: ws.drop (cursor.place + 1) := by
  obtain ⟨lt, rfl⟩ := List.getElem?_eq_some_iff.1 at_
  exact List.drop_eq_getElem_cons lt

theorem Completes.of_step (context : g.context = f.context)
    (eq : rest s ws f cursor = rest s ws g cursor.next)
    (steps : ∀ outer, step s ⟨f, outer⟩ l = .ok ⟨g, outer⟩)
    (h : Completes s ws g cursor.next) : Completes s ws f cursor := by
  refine .back cursor.next context rfl (Nat.le_succ _) eq (fun outer _ _ => ?_) h
  rw [drop_eq at_, run_lexeme, steps]
  rfl

theorem Completes.of_fault {e : Fault}
    (eq : rest s ws f cursor = some (.error e, cursor.next))
    (steps : ∀ outer, (outer = [] ↔ f.context.unclosed? = none) → step s ⟨f, outer⟩ l = .error e) :
    Completes s ws f cursor := by
  refine .of_failure cursor.next rfl (Nat.le_succ _) eq
    fun outer _ line => whole_of_fault ?_
  rw [drop_eq at_, run_lexeme, steps outer line]
  rfl

end Lexeme

theorem rest_push (e : Element) : rest s ws (f.push e) =
    Context.stretch s ws f.context f.closed.reverse (f.run.reverse ++ [e]) (lastGroup? [e])
      false := by
  have group : (f.push e).lastGroup? = lastGroup? [e] := by
    cases e with
    | operand => rfl
    | operator c => cases c <;> rfl
  rw [rest, group]
  simp only [Frame.push, List.reverse_cons]
  rfl

theorem inBracket_eq (cursor : Cursor) {c : Context} (kind : c.unclosed? ≠ none)
    (inner : ∀ between, cursor.place ≤ between.place → Completes s ws ⟨c, [], []⟩ between) :
    ∃ r cursor', Context.inBracket s ws c cursor = some (r, cursor') ∧ cursor'.depth = cursor.depth ∧
      cursor.place ≤ cursor'.place ∧
      (∀ e, r = .error e → ∀ frames : State, frames.outer.length = cursor.depth →
        (frames.enter s.maxDepth c >>= (whole s · (ws.drop cursor.place))) = .error e) ∧
      ∀ ms, r = .ok ms → ∃ e, wrapped c ms = some e ∧ ∀ frames : State,
        frames.outer.length = cursor.depth →
          (frames.enter s.maxDepth c >>= (Expr.run s · (ws.drop cursor.place))) =
            Expr.run s (frames.push e) (ws.drop cursor'.place) := by
  by_cases deep : s.maxDepth ≤ cursor.depth
  · refine ⟨.error (.tooDeep .brackets s.maxDepth), cursor, ?_, rfl, Nat.le_refl _,
      fun e failed frames length => ?_, nofun⟩
    · rw [Context.inBracket, if_pos deep]
    · rw [State.enter, length, if_pos deep, ← failed]
      rfl
  · obtain ⟨r, cursor', read, reads⟩ := inner { cursor with depth := cursor.depth + 1 } (Nat.le_refl _)
    have entered {frames : State} (length : frames.outer.length = cursor.depth) :
        frames.enter s.maxDepth c = .ok ⟨⟨c, [], []⟩, frames.frame :: frames.outer⟩ := by
      rw [State.enter, length, if_neg deep]
    refine ⟨r, { cursor' with depth := cursor.depth }, ?_, rfl, reads.onward,
      fun e failed frames length => ?_, fun ms ok => ?_⟩
    · rw [Context.inBracket, if_neg deep]
      change (rest s ws ⟨c, [], []⟩ _).bind _ = _
      rw [read]
      change (sub cursor'.depth 1).bind _ = _
      rw [reads.depth, sub_add]
      rfl
    · rw [entered length]
      exact reads.failed e failed _ (congrArg (· + 1) length)
        (iff_of_false (List.cons_ne_nil _ _) kind)
    · obtain ⟨e, element, same⟩ := reads.bracket ms ok kind
      refine ⟨e, element, fun frames length => ?_⟩
      rw [entered length]
      exact same _ _ (congrArg (· + 1) length)

theorem ends_at_bracket (at_ : ws[cursor.place]? = some l) {c : Context}
    {k : List Measured → Reading (List Measured)}
    (fits : g.Fits) (context : g.context = f.context) (kind : c.unclosed? ≠ none)
    (begins : rest s ws f cursor = (Context.inBracket s ws c >>= k) cursor.next)
    (goes_on : ∀ ms e, wrapped c ms = some e → k ms = rest s ws (g.push e))
    (steps : ∀ outer, step s ⟨f, outer⟩ l = State.enter s.maxDepth c ⟨g, outer⟩)
    (onward : ∀ g between, cursor.place < between.place → g.Fits → Completes s ws g between) :
    Completes s ws f cursor := by
  obtain ⟨r, cursor', read, depth, further, failed, ok⟩ := inBracket_eq cursor.next kind
    fun between le => onward _ between le fun _ => rfl
  have opened (outer : List Frame) : Expr.run s ⟨f, outer⟩ (ws.drop cursor.place) =
      (State.enter s.maxDepth c ⟨g, outer⟩ >>= (Expr.run s · (ws.drop cursor.next.place))) := by
    rw [drop_eq at_, run_lexeme, steps]
    rfl
  cases r with
  | error e =>
    refine .of_failure cursor' depth (Nat.le_of_succ_le further)
      (begins.trans (bind_of_error read)) fun outer length _ => ?_
    have stops := failed e rfl ⟨g, outer⟩ length
    rw [whole, opened]
    revert stops
    cases State.enter s.maxDepth c ⟨g, outer⟩ with
    | error e' => exact id
    | ok frames => exact id
  | ok ms =>
    obtain ⟨e, element, same⟩ := ok ms rfl
    refine .back (g := g.push e) cursor' context depth (Nat.le_of_succ_le further)
      ?_ (fun outer length _ => (opened outer).trans (same ⟨g, outer⟩ length))
      (onward _ _ further fits)
    rw [begins, bind_of_ok read, goes_on ms e element]

section Lexeme

variable (at_ : ws[cursor.place]? = some l) (open_ : f.context.terminator? ≠ some l.kind)

include at_ open_

theorem rest_eq_onLexeme : rest s ws f cursor =
    Context.onLexeme s ws f.context f.closed.reverse f.run.reverse f.lastGroup? l cursor.next := by
  rw [rest, Context.stretch, bind_of_ok (get_apply cursor), at_]
  simp only
  rw [bind_of_ok (set_apply _ _), if_neg open_]

theorem ends_at_fault {e : Fault}
    (eq : Context.onLexeme s ws f.context f.closed.reverse f.run.reverse f.lastGroup? l = throw e)
    (steps : ∀ outer, step s ⟨f, outer⟩ l = .error e) : Completes s ws f cursor := by
  refine .of_fault at_ ?_ fun outer _ => steps outer
  rw [rest_eq_onLexeme at_ open_, eq]
  rfl

theorem ends_at_element (read : Except Fault Element)
    (eq : Context.onLexeme s ws f.context f.closed.reverse f.run.reverse f.lastGroup? l = (do
      let e ← read
      Context.stretch s ws f.context f.closed.reverse (f.run.reverse ++ [e]) (lastGroup? [e])
        false))
    (steps : ∀ outer, step s ⟨f, outer⟩ l = read.map fun e => ⟨f.push e, outer⟩)
    (onward : ∀ e, Completes s ws (f.push e) cursor.next) :
    Completes s ws f cursor := by
  have reads := liftExcept_apply (σ := Cursor) read cursor.next
  cases given : read with
  | error e =>
    rw [given] at reads
    refine .of_fault (e := e) at_ ?_ fun outer _ => by rw [steps, given]; rfl
    rw [rest_eq_onLexeme at_ open_, eq, given]
    exact bind_of_error reads
  | ok e =>
    rw [given] at reads
    refine .of_step (g := f.push e) at_ rfl ?_ (fun outer => by rw [steps, given]; rfl)
      (onward e)
    rw [rest_eq_onLexeme at_ open_, eq, given, bind_of_ok reads, rest_push]

end Lexeme

section Cases

variable (fits : f.Fits)

include fits

theorem ends_at_end (none_ : ws[cursor.place]? = none) : Completes s ws f cursor := by
  have nothing : ws.drop cursor.place = [] := by
    simpa using none_
  have read (outer : List Frame) : Expr.run s ⟨f, outer⟩ (ws.drop cursor.place) = .ok ⟨f, outer⟩ := by
    rw [nothing]
    rfl
  cases unclosed : f.context.unclosed? with
  | some fault =>
    refine .of_failure (e := fault) cursor rfl (Nat.le_refl _) ?_ fun outer _ _ => ?_
    · rw [rest, Context.stretch, bind_of_ok (get_apply cursor), none_]
      simp only [unclosed]
      rfl
    · rw [whole, read]
      change State.finish ⟨f, outer⟩ >>= _ = _
      rw [State.finish, unclosed]
      rfl
  | none =>
    have eq : rest s ws f cursor = some (f.results s.maxDepth, cursor) := by
      rw [rest, Context.stretch, bind_of_ok (get_apply cursor), none_]
      simp only [unclosed]
      exact ended_eq fits cursor
    have last (outer : List Frame) :
        whole s ⟨f, outer⟩ (ws.drop cursor.place) = f.results s.maxDepth := by
      rw [whole, read]
      change State.finish ⟨f, outer⟩ >>= _ = _
      rw [State.finish, unclosed]
      rfl
    exact ⟨_, _, eq, rfl, Nat.le_refl _, fun e failed outer _ _ => (last outer).trans failed,
      fun ms ok _ _ => (last []).trans ok, fun _ _ inner => absurd unclosed inner⟩

theorem ends_at_terminator (at_ : ws[cursor.place]? = some l)
    (closes : f.context.terminator? = some l.kind) : Completes s ws f cursor := by
  have bracket : f.context.unclosed? ≠ none := by
    intro line
    cases c : f.context with
    | statement | statements => rw [c] at closes; cases closes
    | group | call | array => rw [c] at line; cases line
  have step_eq (g : Frame) (outer : List Frame) : step s ⟨f, g :: outer⟩ l =
      (f.element s.maxDepth).map fun e => ⟨g.push e, outer⟩ := by
    cases c : f.context with
    | statement | statements => rw [c] at closes; cases closes
    | group | call | array =>
      rw [c] at closes
      have kind := (Option.some.inj closes).symm
      simp only [step, kind, State.leave, c]
      cases f.element s.maxDepth <;> rfl
  have eq : rest s ws f cursor = some (f.results s.maxDepth, cursor.next) := by
    rw [rest, Context.stretch, bind_of_ok (get_apply cursor), at_]
    simp only
    rw [bind_of_ok (set_apply _ _), if_pos closes]
    exact ended_eq fits cursor.next
  obtain ⟨fails, gives⟩ := element_eq bracket s.maxDepth
  refine ⟨_, _, eq, rfl, Nat.le_succ _, fun e failed outer _ line => ?_,
    fun _ _ _ line => absurd line bracket, fun ms ok _ => ?_⟩
  · cases outer with
    | nil => exact absurd (line.1 rfl) bracket
    | cons g outer =>
      refine whole_of_fault ?_
      rw [drop_eq at_, run_lexeme, step_eq, fails e failed]
      rfl
  · obtain ⟨e, element, given⟩ := gives ms ok
    refine ⟨e, element, fun g outer _ => ?_⟩
    rw [drop_eq at_, run_lexeme, step_eq, given]
    rfl

omit fits in
theorem ends_at_comma (at_ : ws[cursor.place]? = some l)
    (open_ : f.context.terminator? ≠ some l.kind) (kind : l.kind = .comma)
    (onward : ∀ g between, cursor.place < between.place → g.Fits → Completes s ws g between) :
    Completes s ws f cursor := by
  cases list : f.context.isList with
  | false =>
    exact ends_at_fault (e := .strayComma) at_ open_
      (by simp only [Context.onLexeme, kind, list]; rfl)
      fun outer => by simp only [step, kind, list]; rfl
  | true =>
    have closes := closeStatement_eq (s := s) f.run f.closed cursor.next
    have begins : rest s ws f cursor = (do
        let output ← closeStatement s f.closed.reverse f.run.reverse f.lastGroup?
        Context.stretch s ws f.context output [] none true : Reading (List Measured))
          cursor.next := by
      simp only [rest_eq_onLexeme at_ open_, Context.onLexeme, kind, list]
      rfl
    have steps (outer : List Frame) : step s ⟨f, outer⟩ l =
        (f.closeStatement s.maxDepth).map fun g => ⟨g, outer⟩ := by
      simp only [step, kind, list]
      cases f.closeStatement s.maxDepth <;> rfl
    rw [Frame.closeStatement] at steps
    cases tree : close s.maxDepth f.run with
    | error e =>
      rw [tree] at closes steps
      exact .of_fault at_ (begins.trans (bind_of_error closes)) fun outer _ => steps outer
    | ok m =>
      rw [tree] at closes steps
      exact .of_step (g := { f with closed := m :: f.closed, run := [] }) at_ rfl
        (begins.trans (bind_of_ok closes)) steps
        (onward _ _ (Nat.lt_succ_self _) fun single => absurd list (by simp [single]))

theorem ends_at_argument (at_ : ws[cursor.place]? = some l)
    (open_ : f.context.terminator? ≠ some l.kind)
    (next : Frame → List Frame → Except Fault State)
    {k : List Measured × List Element → Reading (List Measured)}
    (eq : Context.onLexeme s ws f.context f.closed.reverse f.run.reverse f.lastGroup? l =
      withRoom s f.context f.closed.reverse f.run.reverse f.lastGroup? >>= k)
    (steps : ∀ outer, step s ⟨f, outer⟩ l = f.separate s.maxDepth >>= (next · outer))
    (goes_on : ∀ g, g.Fits → g.context = f.context →
      rest s ws f cursor = k (g.closed.reverse, g.run.reverse) cursor.next →
      (∀ outer, step s ⟨f, outer⟩ l = next g outer) → Completes s ws f cursor) :
    Completes s ws f cursor := by
  have parts := withRoom_eq (s := s) f cursor.next
  have begins := (rest_eq_onLexeme at_ open_).trans (congrFun eq cursor.next)
  cases given : f.separate s.maxDepth with
  | error e =>
    rw [given] at parts steps
    exact .of_fault at_ (begins.trans (bind_of_error parts)) fun outer _ => steps outer
  | ok g =>
    obtain ⟨fits', context⟩ := fits.separate given
    rw [given] at parts steps
    exact goes_on g fits' context (begins.trans (bind_of_ok parts)) steps

theorem ends_at_openBrace (at_ : ws[cursor.place]? = some l)
    (open_ : f.context.terminator? ≠ some l.kind) (kind : l.kind = .openBrace)
    (onward : ∀ g between, cursor.place < between.place → g.Fits → Completes s ws g between) :
    Completes s ws f cursor := by
  refine ends_at_argument fits at_ open_
    (fun g outer => State.enter s.maxDepth .array ⟨g, outer⟩) (by rw [Context.onLexeme, kind])
    (fun outer => by simp only [step, kind]) fun g fits context begins steps => ?_
  refine ends_at_bracket at_ fits context (c := .array) (Option.some_ne_none _) begins
    (fun ms e element => ?_) steps onward
  cases element
  rw [rest_push, context]
  rfl

theorem ends_at_openBracket (at_ : ws[cursor.place]? = some l)
    (open_ : f.context.terminator? ≠ some l.kind) (kind : l.kind = .openBracket)
    (onward : ∀ g between, cursor.place < between.place → g.Fits → Completes s ws g between) :
    Completes s ws f cursor := by
  have begins := rest_eq_onLexeme (s := s) at_ open_
  by_cases last : f.lastGroup? = some .argument
  · simp only [Context.onLexeme, kind, if_pos last] at begins
    refine ends_at_bracket at_ fits rfl (c := .call) (Option.some_ne_none _) begins
      (fun ms e element => ?_) (fun outer => ?_) onward
    · cases element
      rw [rest_push]
      rfl
    · simp only [step, kind, last, bracketContext]
  · simp only [Context.onLexeme, kind, if_neg last] at begins
    refine ends_at_bracket at_ fits rfl (c := .group) (Option.some_ne_none _) begins
      (fun ms e element => ?_) (fun outer => ?_) onward
    · obtain ⟨m, rfl⟩ : ∃ m, ms = [m] := by
        unfold wrapped at element
        split at element <;> simp_all
      cases element
      rw [rest_push]
      rfl
    · simp only [step, kind, bracketContext_of_ne last]

/-- A lexeme that does not end the stretch is read by both, or stops both. -/
theorem ends_at_lexeme (at_ : ws[cursor.place]? = some l)
    (open_ : f.context.terminator? ≠ some l.kind)
    (onward : ∀ g between, cursor.place < between.place → g.Fits → Completes s ws g between) :
    Completes s ws f cursor := by
  have next (e : Element) : Completes s ws (f.push e) cursor.next :=
    onward _ _ (Nat.lt_succ_self _) fits
  cases kind : l.kind with
  | closeBracket | closeBrace =>
    refine ends_at_fault at_ open_ (by rw [Context.onLexeme, kind]) fun outer => ?_
    rw [kind] at open_
    simp only [step, kind, State.leave]
    cases outer with
    | nil => rfl
    | cons g outer => cases c : f.context <;> simp_all [Context.terminator?]
  | keyword k =>
    exact ends_at_fault at_ open_ (by rw [Context.onLexeme, kind]) fun outer => by
      simp only [step, kind]
  | not =>
    refine ends_at_element at_ open_ (unaryElement .not f.lastGroup?)
      (by rw [Context.onLexeme, kind]) (fun outer => ?_) next
    simp only [step, kind]
    cases unaryElement .not f.lastGroup? <;> rfl
  | bitNot =>
    refine ends_at_element at_ open_ (unaryElement .bitNot f.lastGroup?)
      (by rw [Context.onLexeme, kind]) (fun outer => ?_) next
    simp only [step, kind]
    cases unaryElement .bitNot f.lastGroup? <;> rfl
  | operator op =>
    refine ends_at_element at_ open_ (binaryElement op f.lastGroup?)
      (by rw [Context.onLexeme, kind]) (fun outer => ?_) next
    simp only [step, kind]
    cases binaryElement op f.lastGroup? <;> rfl
  | comma => exact ends_at_comma at_ open_ kind onward
  | name | literal =>
    refine ends_at_argument fits at_ open_
      (fun g outer => do return ⟨g.push (.operand (.leaf (← operand s.inClass l))), outer⟩)
      (by rw [Context.onLexeme, kind]) (fun outer => by simp only [step, kind])
      fun g fits context begins steps => ?_
    have reads := liftExcept_apply (σ := Cursor) (operand s.inClass l) cursor.next
    cases given : operand s.inClass l with
    | error e =>
      rw [given] at reads begins steps
      exact .of_fault at_ (begins.trans (bind_of_error reads)) fun outer _ => steps outer
    | ok leaf =>
      rw [given] at reads begins steps
      refine .of_step (g := g.push (.operand (.leaf leaf))) at_ context ?_ steps
        (onward _ _ (Nat.lt_succ_self _) fits)
      rw [rest_push, context]
      exact begins.trans (bind_of_ok reads)
  | openBrace => exact ends_at_openBrace fits at_ open_ kind onward
  | openBracket => exact ends_at_openBracket fits at_ open_ kind onward

theorem ends (cursor : Cursor) : Completes s ws f cursor := by
  induction gap : ws.length - cursor.place using Nat.strong_induction_on generalizing f cursor with
  | _ gap ih =>
    cases at_ : ws[cursor.place]? with
    | none => exact ends_at_end fits at_
    | some l =>
      by_cases closes : f.context.terminator? = some l.kind
      · exact ends_at_terminator fits at_ closes
      · refine ends_at_lexeme fits at_ closes fun g between further fits => ih _ ?_ fits _ rfl
        have := (List.getElem?_eq_some_iff.1 at_).1
        omega

end Cases

end Simulation

section Line

variable (s : Setting) (ws : List Lexeme)

theorem stretch_line {c : Context} (line : c.unclosed? = none) :
    ∃ cursor, Context.stretch s ws c [] [] none false {} = some (whole s (.start c) ws, cursor) := by
  obtain ⟨r, cursor, read, reads⟩ : Completes s ws ⟨c, [], []⟩ {} := ends (fun _ => rfl) {}
  refine ⟨cursor, read.trans ?_⟩
  cases r with
  | error e => rw [← reads.failed e rfl [] rfl (iff_of_true rfl line)]; rfl
  | ok ms => rw [← reads.line ms rfl rfl line]; rfl

theorem whole_start (c : Context) : whole s (.start c) ws = (do
    let f ← (← Expr.run s (.start c) ws).finish
    ({ f with context := c } : Frame).results s.maxDepth) := by
  rw [whole]
  cases read : Expr.run s (.start c) ws with
  | error e => rfl
  | ok frames =>
    change frames.finish >>= _ = frames.finish >>= _
    cases last : frames.finish with
    | error e => rfl
    | ok f =>
      have context := (finish_hasRead last (run_hasRead read (.start c))).1
      change f.results _ = Frame.results _ { f with context := c }
      rw [← context]

theorem readStatement_eq : readStatement s ws = some (parseStatement s ws) := by
  obtain ⟨cursor, read⟩ := stretch_line s ws (c := .statement) rfl
  change (Context.stretch s ws .statement [] [] none false {}).bind _ = _
  rw [read, whole_start, parseStatement]
  cases Expr.run s (.start .statement) ws with
  | error e => rfl
  | ok frames =>
    change some ((frames.finish >>= _) >>= _) = some (frames.finish >>= _)
    cases frames.finish with
    | error e => rfl
    | ok f =>
      change some (Except.map (fun m => [m]) (close s.maxDepth f.run) >>= _) =
        some (close s.maxDepth f.run >>= _)
      cases close s.maxDepth f.run <;> rfl

theorem readStatements_eq : readStatements s ws = some (parseStatements s ws) := by
  obtain ⟨cursor, read⟩ := stretch_line s ws (c := .statements) rfl
  change (Context.stretch s ws .statements [] [] none false {}).bind _ = _
  rw [read, whole_start, parseStatements]
  cases Expr.run s (.start .statements) ws with
  | error e => rfl
  | ok frames =>
    change some (Except.map _ (frames.finish >>= _)) = some (frames.finish >>= _)
    cases frames.finish with
    | error e => rfl
    | ok f =>
      change some (Except.map _ (f.statements s.maxDepth)) = some (f.statements s.maxDepth >>= _)
      cases f.statements s.maxDepth <;> rfl

end Line

end Offside.Expr
