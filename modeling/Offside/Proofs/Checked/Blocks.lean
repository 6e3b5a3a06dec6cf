import Mathlib
import Offside.Proofs.Checked.Mirror

/-!
Bodies read by calls and by blocks. Main statement: whatever the lines are, the calls come to an end,
with no line, symbol or slice missed and no count taken below zero, and what they give is what the
fold over the lines gives.
-/

namespace Offside.Module

open Checked SymbolTree

namespace Translator

open State

variable {config : Config} {n number m : Nat} {t t' : Translator} {s : State} {l : Line}
  {ls : List Line} {ws rest : List Lexeme} {first : Lexeme} {target : Except Error SymbolTree}
  {opener : Opener}

section Steps

theorem takeLine_ends (h : t.lines[t.offset]? = some l) : Ends target takeLine t fun ws t' =>
    ws = l.lexemes ∧ t'.symbols = t.symbols ∧ t.remaining = l :: t'.remaining := by
  obtain ⟨lt, eq⟩ := List.getElem?_eq_some_iff.1 h
  let t' : Translator :=
    { t with lines := t.lines.set t.offset { l with lexemes := [] }, offset := t.offset + 1 }
  have split : t.remaining = l :: t'.remaining := by
    change t.lines.drop t.offset = l :: (t.lines.set t.offset _).drop (t.offset + 1)
    rw [List.drop_set_of_lt (Nat.lt_succ_self _), List.drop_eq_getElem_cons lt, eq]
  have run : takeLine t = some (.ok l.lexemes, t') := by
    rw [takeLine, bind_of_ok (get_apply t), h, bind_of_ok (lift_apply l t)]
    rfl
  refine .of_ok run ⟨rfl, rfl, rfl, rfl, rfl, ?_⟩ ⟨rfl, rfl, split⟩
  rw [split]
  exact Nat.le_succ _

theorem slice_rest (first : Lexeme) (rest : List Lexeme) :
    slice (first :: rest) 1 (first :: rest).length = some rest :=
  slice_tail first rest

theorem statement_ends {k : Expr → Except Fault State} (mirrors : Mirrors config n t s)
    (h : target = onward config number ls (s.statement config ws >>= k)) :
    Ends target (statement number ws) t fun e t' =>
      t' = t ∧ target = onward config number ls (k e) := by
  rw [State.statement, mirrors.setting] at h
  rw [statement]
  refine .get (.defined (Expr.readStatement_eq _ _) ?_)
  refine (Ends.placed h).imp ?_
  rintro e t' ⟨same, -, goes_on⟩
  exact ⟨same, goes_on⟩

theorem statements_ends {k : List Expr → Except Fault State} (mirrors : Mirrors config n t s)
    (h : target = onward config number ls
      (Expr.parseStatements (s.setting config) ws >>= k)) :
    Ends target (statements number ws) t fun es t' =>
      t' = t ∧ target = onward config number ls (k es) := by
  rw [mirrors.setting] at h
  rw [statements]
  refine .get (.defined (Expr.readStatements_eq _ _) ?_)
  refine (Ends.placed h).imp ?_
  rintro e t' ⟨same, -, goes_on⟩
  exact ⟨same, goes_on⟩

theorem declare_ends {name : String} {kind : SymbolKind}
    {k : SymbolTree × Nat → Except Fault State} (known : t.current < t.symbols.size)
    (h : target = onward config number ls (t.symbols.declare t.current name kind >>= k)) :
    Ends target (declare number name kind) t fun id t' => ∃ u,
      t' = { t with symbols := u } ∧ t.symbols.declare t.current name kind = .ok (u, id) ∧
        target = onward config number ls (k (u, id)) := by
  rw [declare]
  refine .get (.defined (enroll_eq known name kind) (.bind (.placed h) ?_))
  rintro ⟨u, id⟩ t' - ⟨rfl, ok, h⟩
  exact .of_ok rfl ⟨rfl, rfl, rfl, rfl, rfl, Nat.le_refl _⟩ ⟨u, rfl, ok, h⟩

theorem traceName_ends {id : Nat} (wf : t.symbols.WellFormed) (known : id < t.symbols.size) :
    Ends target (traceName id) t fun _ t' => t' = t := by
  rw [traceName]
  exact .get (.defined (wf.address_eq known) (.pure rfl))

theorem declareAll_ends {openers : List Opener} {k : SymbolTree → Except Fault State}
    (arguments : List String) (firm : Firm t.symbols openers) (known : t.current < t.symbols.size)
    (h : target = onward config number ls
      (declareArguments t.current arguments t.symbols >>= k)) :
    Ends target (declareAll number arguments) t fun _ t' => ∃ u,
      t' = { t with symbols := u } ∧ Firm u openers ∧ target = onward config number ls (k u) := by
  induction arguments generalizing t with
  | nil => exact .pure ⟨t.symbols, rfl, firm, h⟩
  | cons x arguments ih =>
    rw [declareArguments_cons, bind_assoc] at h
    refine .bind (declare_ends known h) ?_
    rintro id _ - ⟨u, rfl, ok, h⟩
    have size := (size_declare ok).2
    refine (ih (t := { t with symbols := u }) (firm.declare ok) ?_ h).imp ?_
    · change t.current < u.size
      omega
    · rintro _ _ ⟨v, rfl, firm, h⟩
      exact ⟨v, rfl, firm, h⟩

end Steps

/-- The body at this place comes to an end, and what it gives is added to the state. -/
def Settles (config : Config) (t : Translator) (s : State) : Prop :=
  Ends (s.outcome config t.remaining) body t fun stmts t' =>
    Firm t'.symbols s.openers ∧
    s.outcome config t.remaining =
      ({ s with symbols := t'.symbols }.addAll stmts).outcome config t'.remaining ∧
    ∀ l ∈ t'.remaining.head?, l.indentation < s.blocks.length

def Adds (config : Config) (target : Except Error SymbolTree) (s : State) (stmt : Stmt)
    (t : Translator) : Prop :=
  Firm t.symbols s.openers ∧
    target = ({ s with symbols := t.symbols }.add stmt).outcome config t.remaining

theorem adds_leaf {stmt : Stmt} (mirrors : Mirrors config n t s)
    (h : target = onward config number t.remaining (.ok (s.add stmt))) :
    Adds config target s stmt t := by
  refine ⟨mirrors.symbols ▸ mirrors.firm, ?_⟩
  rw [← mirrors.symbols]
  exact h

theorem adds_closed {line : Nat} {stmts : List Stmt} {stmt : Stmt}
    (firm : Firm t.symbols (opener :: s.openers))
    (finish : ({ s with symbols := t.symbols } : State).finish ⟨opener, line, stmts.reverse⟩ =
      .ok (({ s with symbols := t.symbols } : State).add stmt))
    (next : ∀ l ∈ t.remaining.head?, l.indentation ≤ s.blocks.length)
    (ends : ∀ l ∈ t.remaining.head?, l.indentation = s.blocks.length →
      (⟨t.symbols, s.entry, ⟨opener, line, stmts.reverse⟩ :: s.blocks⟩ : State).openArm?
        l.indentation = none ∨ afterElse? l.lexemes = none)
    (h : target = State.outcome config
      ⟨t.symbols, s.entry, ⟨opener, line, stmts.reverse⟩ :: s.blocks⟩ t.remaining) :
    Adds config target s stmt t := by
  refine ⟨firm.tail, h.trans (outcome_leave finish ?_ fun l mem => ?_)⟩
  · rw [length_add]
    rfl
  · rw [length_add]
    exact ⟨next l mem, ends l mem⟩

section Bodies

variable (inner : ∀ t s, t.remaining.length ≤ m → Mirrors config 0 t s → Settles config t s)

include inner

theorem block_ends (few : t.remaining.length ≤ m)
    (deeper : Mirrors config 0 { t with indentation := t.indentation + 1 } (s.under opener number))
    (h : target = onward config number t.remaining (s.enter config.maxDepth opener number)) :
    Ends target (block number) t fun stmts t' => Firm t'.symbols (opener :: s.openers) ∧
      target = State.outcome config
        ⟨t'.symbols, s.entry, ⟨opener, number, stmts.reverse⟩ :: s.blocks⟩ t'.remaining ∧
      ∀ l ∈ t'.remaining.head?, l.indentation ≤ s.blocks.length := by
  have level : s.openers.length + 1 = t.indentation + 1 := deeper.level
  have links : opener.links + (s.openers.map Opener.links).sum + 0 = t.links := deeper.links
  have maxDepth : config.maxDepth = t.maxDepth := deeper.maxDepth
  rw [State.enter, ← length_openers, links_eq_openers] at h
  by_cases deep : t.maxDepth ≤ t.indentation + t.links
  · rw [if_pos (by omega), maxDepth] at h
    refine ⟨.error ⟨number, .tooDeep .blocks t.maxDepth⟩, t, ?_, .refl t, fun e eq => ?_,
      fun _ eq => by cases eq⟩
    · rw [block, if_pos deep]
    · cases eq
      exact h
  · rw [if_neg (by omega)] at h
    replace h : target = (s.under opener number).outcome config t.remaining := h
    obtain ⟨r, t', run, restored, failed, ok⟩ :=
      inner { t with indentation := t.indentation + 1 } (s.under opener number) few deeper
    refine ⟨r, { t' with indentation := t.indentation }, ?_, ?_,
      fun e eq => h.trans (failed e eq), fun stmts eq => ?_⟩
    · rw [block, if_neg deep]
      change (body _).bind _ = _
      rw [run]
      change (sub t'.indentation 1).bind _ = _
      rw [restored.indentation, sub_add]
      rfl
    · exact ⟨rfl, restored.classes, restored.current, restored.links, restored.maxDepth,
        restored.fewer⟩
    · obtain ⟨firm, same, next⟩ := ok stmts eq
      refine ⟨firm, ?_, fun l mem => Nat.le_of_lt_succ (next l mem)⟩
      rw [h]
      refine same.trans ?_
      change (({ s with symbols := t'.symbols } : State).under opener number |>.addAll stmts
        |>.outcome config t'.remaining) = _
      rw [addAll_under]
      rfl

theorem loop_ends (opener : Opener) (few : t.remaining.length ≤ m) (mirrors : Mirrors config 0 t s)
    (none_ : opener.scope? = none) (links : opener.links = 0) {make : List Stmt → Stmt}
    (notIf : ∀ c chain, opener ≠ .if_ c chain)
    (finish : ∀ stmts (s : State), s.finish ⟨opener, number, stmts.reverse⟩ = .ok (s.add (make stmts)))
    (h : target = onward config number t.remaining (s.enter config.maxDepth opener number)) :
    Ends target (do let body ← block number; return make body) t (Adds config target s) := by
  refine .bind (block_ends inner few (mirrors.under number opener none_ links) h) ?_
  rintro stmts t' - ⟨firm, same, next⟩
  refine .pure (adds_closed firm (finish stmts _) next (fun l _ _ => .inl ?_) same)
  cases opener with
  | if_ c chain => exact absurd rfl (notIf c chain)
  | _ => rfl

theorem while_ends (few : t.remaining.length ≤ m) (mirrors : Mirrors config 0 t s)
    (h : target = onward config number t.remaining (s.openWhile config number rest)) :
    Ends target (unit number (.keyword .while_) (first :: rest)) t (Adds config target s) := by
  rw [unit]
  refine .defined (slice_rest first rest) (.bind (statement_ends mirrors h) ?_)
  rintro c _ - ⟨rfl, h⟩
  exact loop_ends inner (.while_ c) few mirrors rfl rfl (fun _ _ => Opener.noConfusion)
    (fun stmts s => by rw [State.finish, List.reverse_reverse]) h

theorem for_ends (few : t.remaining.length ≤ m) (mirrors : Mirrors config 0 t s)
    (h : target = onward config number t.remaining (s.openFor config number rest)) :
    Ends target (unit number (.keyword .for_) (first :: rest)) t (Adds config target s) := by
  rw [unit]
  refine .defined (slice_rest first rest) (.bind (statements_ends mirrors h) ?_)
  rintro terms _ - ⟨rfl, h⟩
  rcases terms with _ | ⟨init, _ | ⟨c, _ | ⟨step, _ | ⟨more, terms⟩⟩⟩⟩
  case cons.cons.cons.nil =>
    exact loop_ends inner (.for_ init c step) few mirrors rfl rfl
      (fun _ _ => Opener.noConfusion) (fun stmts s => by rw [State.finish, List.reverse_reverse]) h
  all_goals exact .fail h

omit inner in
theorem openForeach_eq_header (first : Lexeme) : s.openForeach config number rest =
    match foreachHeader? (first :: rest) with
    | some (name, container) => do
      let container ← s.statement config container
      s.enter config.maxDepth (.foreach ⟨name, .none⟩ container) number
    | none => .error .malformedForeach := by
  rcases rest with _ | ⟨item, _ | ⟨word, container⟩⟩
  · rfl
  · rfl
  · rw [openForeach, foreachHeader?]
    split
    · next name plain =>
      rw [plain]
      by_cases isIn : word.kind = .keyword .in_
      · simp only [if_pos isIn, Option.map_some]
      · simp only [if_neg isIn]
    · next none_ =>
      rw [none_]
      split
      · next eq => split at eq <;> cases eq
      · rfl

theorem foreach_ends (few : t.remaining.length ≤ m) (mirrors : Mirrors config 0 t s)
    (h : target = onward config number t.remaining (s.openForeach config number rest)) :
    Ends target (unit number (.keyword .foreach) (first :: rest)) t (Adds config target s) := by
  rw [openForeach_eq_header first] at h
  rw [unit]
  cases header : foreachHeader? (first :: rest) with
  | none =>
    rw [header] at h
    exact .fail h
  | some parts =>
    obtain ⟨name, container⟩ := parts
    rw [header] at h
    refine .bind (statement_ends mirrors h) ?_
    rintro container _ - ⟨rfl, h⟩
    exact loop_ends inner (.foreach ⟨name, .none⟩ container) few mirrors rfl rfl
      (fun _ _ => Opener.noConfusion) (fun stmts s => by rw [State.finish, List.reverse_reverse]) h

omit inner in
theorem return_ends (mirrors : Mirrors config 0 t s)
    (h : target = onward config number t.remaining (s.addReturn config number rest)) :
    Ends target (unit number (.keyword .return_) (first :: rest)) t (Adds config target s) := by
  rw [unit]
  cases rest with
  | nil => exact .pure (adds_leaf mirrors h)
  | cons next rest =>
    have more : (first :: next :: rest).length ≠ 1 := by simp
    simp only [if_neg more]
    refine .defined (slice_rest first _) (.bind (statement_ends mirrors h) ?_)
    rintro e _ - ⟨rfl, h⟩
    exact .pure (adds_leaf mirrors h)

omit inner in
theorem expression_ends (mirrors : Mirrors config 0 t s)
    (h : target = onward config number t.remaining
      (s.statement config ws >>= fun e => .ok (s.add (.expr e number)))) :
    Ends target (statement number ws >>= fun e => pure (.expr e number)) t
      (Adds config target s) := by
  refine .bind (statement_ends mirrors h) ?_
  rintro e _ - ⟨rfl, h⟩
  exact .pure (adds_leaf mirrors h)

omit inner in
theorem elseLine?_eq_some : elseLine? t = some l ↔ t.lines[t.offset]? = some l ∧
    l.indentation = t.indentation ∧ ∃ first rest, l.lexemes = first :: rest ∧
      first.kind = .keyword .else_ := by
  rw [elseLine?]
  cases t.lines[t.offset]? with
  | none => simp
  | some line =>
    have isElse : line.lexemes.head?.map (·.kind) = some (.keyword .else_) ↔
        ∃ first rest, line.lexemes = first :: rest ∧ first.kind = .keyword .else_ := by
      cases line.lexemes <;> simp
    simp only [Option.bind_eq_bind, Option.bind_some]
    split
    · next h =>
      rw [isElse] at h
      refine ⟨fun eq => ?_, fun ⟨eq, _⟩ => eq⟩
      cases eq
      exact ⟨rfl, h⟩
    · next h =>
      rw [isElse] at h
      refine ⟨fun eq => ?_, fun ⟨eq, h'⟩ => ?_⟩ <;> cases eq
      exact absurd h' h

omit inner in
theorem plain_of_elseLine? (h : elseLine? t = none) (mem : l ∈ t.remaining.head?)
    (level : l.indentation = t.indentation) : afterElse? l.lexemes = none := by
  have here : t.lines[t.offset]? = some l := by
    rw [← mem, remaining, List.head?_drop]
  cases lexemes : l.lexemes with
  | nil => rfl
  | cons first rest =>
    refine if_neg fun kind => ?_
    have found := elseLine?_eq_some.2 ⟨here, level, first, rest, lexemes, kind⟩
    exact absurd (h.symm.trans found) (Option.some_ne_none l).symm

omit inner in
theorem link_ends {make : Stmt → Stmt}
    (h : Ends target (chain number rest) { t with links := t.links + 1 } fun stmt =>
      Adds config target s (make stmt)) :
    Ends target (link number (first :: rest)) t fun stmt => Adds config target s (make stmt) := by
  obtain ⟨r, t', run, restored, failed, ok⟩ := h
  refine ⟨r, { t' with links := t.links }, ?_, ?_, failed, ok⟩
  · rw [link, slice_rest]
    change (chain number rest _).bind _ = _
    rw [run]
    change (sub t'.links 1).bind _ = _
    rw [restored.links, sub_add]
    rfl
  · exact ⟨restored.indentation, restored.classes, restored.current, rfl, restored.maxDepth,
      restored.fewer⟩

theorem else_ends {arm : Arm} {arms : List Arm} (few : t.remaining.length ≤ m)
    (mirrors : Mirrors config arms.length t s)
    (h : target = onward config number t.remaining
      (s.enter config.maxDepth (.else_ arm arms) number)) :
    Ends target (do
      let otherwise ← block number
      return .ifElse arm.condition arm.body otherwise arm.line) t fun stmt =>
        Adds config target s (chained arms stmt) := by
  refine .bind (block_ends inner few (mirrors.under number (.else_ arm arms) rfl rfl) h) ?_
  rintro stmts t' - ⟨firm, same, next⟩
  refine .pure (adds_closed firm ?_ next (fun _ _ _ => .inl rfl) same)
  rw [State.finish, List.reverse_reverse]

theorem chain_ends (arms : List Arm) (few : t.remaining.length ≤ m)
    (mirrors : Mirrors config arms.length t s)
    (h : target = onward config number t.remaining (s.openIf config number rest arms)) :
    Ends target (chain number (first :: rest)) t fun stmt =>
      Adds config target s (chained arms stmt) := by
  induction left : t.remaining.length using Nat.strongRecOn generalizing t s arms number first rest with
  | _ left ih =>
    rw [chain]
    refine .defined (slice_rest first rest) (.bind (statement_ends mirrors h) ?_)
    rintro c t' - ⟨here, h⟩
    subst t'
    refine .bind (block_ends inner few (mirrors.under number (.if_ c arms) rfl rfl) h) ?_
    rintro stmts t₁ restored ⟨firm, same, next⟩
    have outside : Mirrors config arms.length t₁ { s with symbols := t₁.symbols } :=
      mirrors.advance restored [] firm.tail
    have height : s.blocks.length = t₁.indentation := by
      rw [restored.indentation, ← mirrors.level, length_openers]
    refine .get ?_
    cases found : elseLine? t₁ with
    | none =>
      refine .pure (adds_closed firm ?_ next (fun l mem level => .inr ?_) same)
      · rw [State.finish, List.reverse_reverse]
      · exact plain_of_elseLine? found mem (level.trans height)
    | some l =>
      obtain ⟨here, level, e, rest, lexemes, isElse⟩ := elseLine?_eq_some.1 found
      refine .bind (takeLine_ends here) ?_
      rintro ws t₂ restored₂ ⟨rfl, symbols, split⟩
      have outside := outside.same restored₂ symbols
      rw [split, outcome_cons] at same
      have goes_on : target = onward config l.number t₂.remaining
          (State.otherwise config l.number rest ⟨c, stmts, number⟩ arms
            { s with symbols := t₁.symbols }) := by
        rw [same, step_goes_on (level.trans height.symm) lexemes isElse]
      have few₂ : t₂.remaining.length < t.remaining.length := by
        have := restored.fewer
        have := congrArg List.length split
        rw [List.length_cons] at this
        omega
      have few₃ : t₂.remaining.length ≤ m := Nat.le_trans (Nat.le_of_lt few₂) few
      rw [lexemes]
      cases rest with
      | nil => exact else_ends inner (s := { s with symbols := t₁.symbols }) few₃ outside goes_on
      | cons f header =>
        simp only [List.getElem?_cons_succ, List.getElem?_cons_zero]
        by_cases isIf : f.kind = .keyword .if_
        · rw [if_pos isIf]
          rw [State.otherwise, if_pos isIf] at goes_on
          have further : Mirrors config (⟨c, stmts, number⟩ :: arms : List Arm).length
              { t₂ with links := t₂.links + 1 } { s with symbols := t₁.symbols } :=
            { outside with links := congrArg (· + 1) outside.links }
          refine .bind (link_ends (ih _ (left ▸ few₂) _ few₃ further goes_on rfl)) ?_
          rintro stmt t₃ - adds
          exact .pure adds
        · rw [if_neg isIf]
          rw [State.otherwise, if_neg isIf] at goes_on
          exact .fail goes_on

theorem inScope_ends {id classes : Nat} {arguments : List String} (few : t.remaining.length ≤ m)
    (mirrors : Mirrors config 0 t s) (firm : Firm t.symbols (opener :: s.openers))
    (isScope : opener.scope? = some id) (links : opener.links = 0)
    (inClass : (opener.isClass || decide (0 < t.classes)) = decide (0 < t.classes + classes))
    (h : target = onward config number t.remaining
      (declareArguments id arguments t.symbols >>= fun u =>
        State.enter config.maxDepth opener number { s with symbols := u })) :
    Ends target (inScope id classes number arguments) t fun stmts t' =>
      Firm t'.symbols (opener :: s.openers) ∧
      target = State.outcome config
        ⟨t'.symbols, s.entry, ⟨opener, number, stmts.reverse⟩ :: s.blocks⟩ t'.remaining ∧
      ∀ l ∈ t'.remaining.head?, l.indentation ≤ s.blocks.length := by
  let inside : Translator := { t with current := id, classes := t.classes + classes }
  have known : id < t.symbols.size := firm.scope_lt isScope
  have body : Ends target (declareAll number arguments >>= fun _ => block number) inside
      fun stmts t' => Firm t'.symbols (opener :: s.openers) ∧
        target = State.outcome config
          ⟨t'.symbols, s.entry, ⟨opener, number, stmts.reverse⟩ :: s.blocks⟩ t'.remaining ∧
        ∀ l ∈ t'.remaining.head?, l.indentation ≤ s.blocks.length := by
    refine .bind (declareAll_ends (t := inside) arguments firm known h) ?_
    rintro _ _ - ⟨u, rfl, firm, h⟩
    refine block_ends inner (s := { s with symbols := u }) few ?_ h
    constructor
    · exact firm
    · rfl
    · exact congrArg (· + 1) mirrors.level
    · change opener.links + (s.openers.map Opener.links).sum + 0 = t.links
      rw [links, ← mirrors.links, Nat.zero_add]
    · rw [scope_eq_openers]
      change ((opener :: s.openers).findSome? Opener.scope?).getD root = id
      rw [List.findSome?_cons_of_isSome (by rw [isScope]; rfl), isScope]
      rfl
    · rw [← mirrors.inClass] at inClass
      exact inClass
    · exact mirrors.maxDepth
  obtain ⟨r, t', run, restored, failed, ok⟩ := body
  refine ⟨r, { t' with current := t.current, classes := t.classes }, ?_, ?_, failed, ok⟩
  · rw [inScope]
    change ((declareAll number arguments >>= fun _ => block number : Translation _) inside).bind _ = _
    rw [run]
    change (sub t'.classes classes).bind _ = _
    rw [restored.classes, sub_add]
    rfl
  · exact ⟨restored.indentation, rfl, rfl, restored.links, restored.maxDepth, restored.fewer⟩

omit inner in
theorem declareClass_eq_name (first : Lexeme) : s.declareClass config number rest =
    match className? (first :: rest) with
    | some name => do
      let (u, id) ← s.symbols.declare s.scope name .class_
      State.enter config.maxDepth (.class_ id) number { s with symbols := u }
    | none => .error .malformedClass := by
  rw [State.declareClass]
  rcases rest with _ | ⟨x, _ | ⟨y, more⟩⟩
  · rfl
  · rw [className?, List.mapM_cons]
    cases x.plainName? <;> rfl
  · have more_ : className? (first :: x :: y :: more) = none := rfl
    rw [more_, List.mapM_cons, List.mapM_cons]
    cases x.plainName? with
    | none => rfl
    | some _ =>
      cases y.plainName? with
      | none => rfl
      | some _ => cases more.mapM (·.plainName?) <;> rfl

theorem class_ends (few : t.remaining.length ≤ m) (mirrors : Mirrors config 0 t s)
    (h : target = onward config number t.remaining (s.declareClass config number rest)) :
    Ends target (class_ number (first :: rest)) t fun _ t' => Firm t'.symbols s.openers ∧
      target = State.outcome config { s with symbols := t'.symbols } t'.remaining := by
  rw [declareClass_eq_name first] at h
  rw [class_]
  cases header : className? (first :: rest) with
  | none =>
    rw [header] at h
    exact .fail h
  | some name =>
    rw [header, mirrors.symbols, mirrors.current] at h
    obtain ⟨firm, known⟩ := mirrors.inside
    refine .bind (declare_ends known h) ?_
    rintro id _ restored ⟨u, rfl, ok, h⟩
    have declared : Firm u (.class_ id :: s.openers) := firm.latest ok rfl (by simp [Opener.isClass])
    refine .bind (traceName_ends declared.wellFormed (declared.scope_lt rfl)) ?_
    rintro _ t₁ - same
    subst t₁
    have mirrors : Mirrors config 0 { t with symbols := u } { s with symbols := u } :=
      mirrors.advance restored [] declared.tail
    refine .bind (inScope_ends inner few mirrors declared rfl rfl (by simp [Opener.isClass]) h) ?_
    rintro stmts t' - ⟨firm, same, next⟩
    refine .pure ⟨firm.tail, same.trans (outcome_leave ?_ ?_ fun l mem => ⟨next l mem, ?_⟩)⟩
    · rw [leave_cons, State.finish]
    · rfl
    · exact fun _ => .inl rfl

theorem function_ends (few : t.remaining.length ≤ m) (mirrors : Mirrors config 0 t s)
    (h : target = onward config number t.remaining (s.declareFunction config number rest)) :
    Ends target (function number (first :: rest)) t fun _ t' => Firm t'.symbols s.openers ∧
      target = State.outcome config { s with symbols := t'.symbols } t'.remaining := by
  rw [State.declareFunction] at h
  rw [function]
  refine .defined (slice_rest first rest) ?_
  rcases header : rest.mapM (·.plainName?) with _ | _ | ⟨name, arguments⟩
  case some.cons =>
    rw [header, mirrors.symbols, mirrors.current] at h
    rw [header]
    obtain ⟨firm, known⟩ := mirrors.inside
    refine .bind (declare_ends known h) ?_
    rintro id _ restored ⟨u, rfl, ok, h⟩
    have declared : Firm u (.function id arguments :: s.openers) :=
      firm.latest ok rfl (by simp [Opener.isClass])
    refine .bind (traceName_ends declared.wellFormed (declared.scope_lt rfl)) ?_
    rintro _ t₁ - same
    subst t₁
    have mirrors : Mirrors config 0 { t with symbols := u } { s with symbols := u } :=
      mirrors.advance restored [] declared.tail
    refine .bind (inScope_ends inner few mirrors declared rfl rfl (by simp [Opener.isClass]) h) ?_
    rintro stmts t' - ⟨firm, same, next⟩
    obtain ⟨ne, d, found, kind⟩ := firm.declared _ List.mem_cons_self id rfl
    obtain ⟨v, set⟩ := firm.wellFormed.setFunction_isOk ⟨arguments, stmts⟩ found (kind.2 rfl)
    refine .get (.defined (redefine_eq set fun _ _ => rfl) ?_)
    refine .of_ok rfl ⟨rfl, rfl, rfl, rfl, rfl, Nat.le_refl _⟩ ⟨firm.tail.setFunction ne set,
      same.trans (outcome_leave ?_ ?_ fun l mem => ⟨next l mem, ?_⟩)⟩
    · rw [leave_cons, State.finish, List.reverse_reverse]
      exact bind_eq_ok.2 ⟨v, set, rfl⟩
    · rfl
    · exact fun _ => .inl rfl
  all_goals
    rw [header] at h ⊢
    exact .fail h

omit inner in
theorem guarded_ends {x : Except Fault State} {read : Translation Stmt}
    (mirrors : Mirrors config 0 t s)
    (h : target = onward config number t.remaining
      (if s.directlyInClass then .error .outsideFunction else x))
    (reads : target = onward config number t.remaining x →
      Ends target read t (Adds config target s)) :
    Ends target (do
      let t ← get
      let scope ← t.symbols.get? t.current
      if scope.kind ≠ .function then fail number .outsideFunction
      else
        let stmt ← read
        return some stmt) t fun stmt t' => Firm t'.symbols s.openers ∧
      target = ({ s with symbols := t'.symbols }.addAll stmt.toList).outcome config t'.remaining := by
  obtain ⟨scope, known, kind⟩ := mirrors.inside.1.scope
  rw [← scope_eq_openers, mirrors.current] at known
  rw [← directlyInClass_eq_openers] at kind
  refine .get (.defined known ?_)
  cases direct : s.directlyInClass with
  | true =>
    rw [direct] at h kind
    rw [if_pos fun isFunction => Bool.false_ne_true (kind.1 isFunction).symm]
    exact .fail h
  | false =>
    rw [direct] at h kind
    rw [if_neg (not_not.2 (kind.2 rfl))]
    exact .bind (reads h) fun stmt t' _ adds => .pure adds

theorem line_ends (few : t.remaining.length ≤ m) (mirrors : Mirrors config 0 t s)
    (h : target = onward config number t.remaining (s.read config number ws)) :
    Ends target (line number ws) t fun stmt t' => Firm t'.symbols s.openers ∧
      target = ({ s with symbols := t'.symbols }.addAll stmt.toList).outcome config t'.remaining := by
  cases ws with
  | nil =>
    rw [line]
    refine .pure ⟨mirrors.inside.1, ?_⟩
    rw [← mirrors.symbols]
    exact h
  | cons first rest =>
    rw [line]
    cases kind : first.kind with
    | keyword k =>
      simp only [State.read, kind] at h
      cases k with
      | class_ => exact .bind (class_ends inner few mirrors h) fun _ _ _ post => .pure post
      | function => exact .bind (function_ends inner few mirrors h) fun _ _ _ post => .pure post
      | else_ => exact .fail h
      | if_ =>
        refine guarded_ends mirrors h fun h => ?_
        rw [unit]
        exact chain_ends inner [] few mirrors h
      | while_ => exact guarded_ends mirrors h fun h => while_ends inner few mirrors h
      | for_ => exact guarded_ends mirrors h fun h => for_ends inner few mirrors h
      | foreach => exact guarded_ends mirrors h fun h => foreach_ends inner few mirrors h
      | return_ => exact guarded_ends mirrors h fun h => return_ends mirrors h
      | in_ =>
        refine guarded_ends mirrors h fun h => ?_
        unfold unit
        exact expression_ends mirrors h
    | _ =>
      simp only [State.read, kind] at h
      refine guarded_ends mirrors h fun h => ?_
      unfold unit
      exact expression_ends mirrors h

end Bodies

theorem level_ends
    (inner : ∀ t' s', t'.remaining.length < t.remaining.length → Mirrors config 0 t' s' →
      Settles config t' s')
    (mirrors : Mirrors config 0 t s) (next : t.lines[t.offset]? = some l)
    (level : l.indentation = t.indentation) :
    Ends (s.outcome config t.remaining) (do
      let lexemes ← takeLine
      let first ← line l.number lexemes
      let others ← body
      return first.toList ++ others) t fun stmts t' =>
        Firm t'.symbols s.openers ∧
        s.outcome config t.remaining =
          ({ s with symbols := t'.symbols }.addAll stmts).outcome config t'.remaining ∧
        ∀ l ∈ t'.remaining.head?, l.indentation < s.blocks.length := by
  have height : s.blocks.length = t.indentation := by
    rw [← mirrors.level, length_openers]
  refine .bind (takeLine_ends next) ?_
  rintro ws t₁ restored₁ ⟨rfl, symbols, split⟩
  have few : t₁.remaining.length < t.remaining.length := by
    rw [split]
    exact Nat.lt_succ_self _
  have inside := mirrors.same restored₁ symbols
  have reads : s.outcome config t.remaining =
      onward config l.number t₁.remaining (s.read config l.number l.lexemes) := by
    rw [split, outcome_cons, step_here (level.trans height.symm)]
  refine .bind (line_ends (fun t s le => inner t s (Nat.lt_of_le_of_lt le few)) (Nat.le_refl _)
    inside reads) ?_
  rintro stmt t₂ restored₂ ⟨firm₂, same₂⟩
  have settled := inner _ _ (Nat.lt_of_le_of_lt restored₂.fewer few)
    (inside.advance restored₂ stmt.toList firm₂)
  rw [Settles, ← same₂] at settled
  refine .bind settled ?_
  rintro stmts t₃ - ⟨firm₃, same₃, next₃⟩
  have added : { ({ s with symbols := t₂.symbols } : State).addAll stmt.toList with
      symbols := t₃.symbols }.addAll stmts =
      ({ s with symbols := t₃.symbols } : State).addAll (stmt.toList ++ stmts) := by
    rw [addAll_with, addAll_append]
  rw [openers_addAll] at firm₃
  rw [added] at same₃
  refine .pure ⟨firm₃, same₃, fun l mem => ?_⟩
  rw [← length_openers]
  have := next₃ l mem
  rwa [← length_openers, openers_addAll] at this

/-- Every body comes to an end, whatever lines are left. -/
theorem settles (mirrors : Mirrors config 0 t s) : Settles config t s := by
  induction left_eq : t.remaining.length using Nat.strongRecOn generalizing t s with
  | _ left ih =>
    subst left_eq
    rw [Settles, body]
    refine .get ?_
    have nothing : Firm t.symbols s.openers ∧ s.outcome config t.remaining =
        ({ s with symbols := t.symbols }.addAll []).outcome config t.remaining :=
      ⟨mirrors.inside.1, by rw [← mirrors.symbols]; rfl⟩
    cases next : t.lines[t.offset]? with
    | none =>
      have none_ : t.remaining.head? = none := (List.head?_drop ..).trans next
      exact .pure ⟨nothing.1, nothing.2, fun l mem => absurd (none_.symm.trans mem) nofun⟩
    | some l =>
      have first : t.remaining.head? = some l := (List.head?_drop ..).trans next
      have height : s.blocks.length = t.indentation := by
        rw [← mirrors.level, length_openers]
      simp only
      rcases Nat.lt_trichotomy l.indentation t.indentation with less | level | more
      · rw [if_pos less]
        refine .pure ⟨nothing.1, nothing.2, fun l' mem => ?_⟩
        cases first.symm.trans mem
        exact height ▸ less
      · rw [if_neg (Nat.not_lt.2 (Nat.le_of_eq level.symm)),
          if_neg (Nat.not_lt.2 (Nat.le_of_eq level))]
        exact level_ends (fun t' s' less inside => ih _ less inside rfl) mirrors next level
      · rw [if_neg (Nat.lt_asymm more), if_pos more]
        refine .fail ?_
        obtain ⟨ls, split⟩ := List.head?_eq_some_iff.1 first
        rw [split, outcome_cons, step, if_pos (by omega)]
        rfl

end Translator

theorem State.addAll_entry (stmts entry : List Stmt) (u : SymbolTree) :
    State.addAll stmts ⟨u, entry, []⟩ = ⟨u, stmts.reverse ++ entry, []⟩ := by
  induction stmts generalizing entry with
  | nil => rfl
  | cons stmt stmts ih =>
    refine (ih (stmt :: entry)).trans ?_
    rw [List.reverse_cons, List.append_assoc]
    rfl

/-- Any lines are translated, and to what the fold over them gives. -/
theorem translate_eq (config : Config) (name : String) (lines : List Line) :
    translate config name lines = some (symbolsOf config name lines) := by
  let t : Translator := { lines, symbols := .new name, maxDepth := config.maxDepth }
  have mirrors : t.Mirrors config 0 (State.start name) :=
    ⟨.start name, rfl, rfl, rfl, rfl, rfl, rfl⟩
  have whole : (State.start name).outcome config t.remaining = symbolsOf config name lines := rfl
  have settled := Translator.settles mirrors
  rw [Translator.Settles, whole] at settled
  obtain ⟨r, t', run, -, failed, ok⟩ := settled
  change (Translator.body t).bind _ = _
  rw [run]
  cases r with
  | error e => exact congrArg some (failed e rfl).symm
  | ok stmts =>
    obtain ⟨firm, same, next⟩ := ok stmts rfl
    have read : t'.remaining = [] := by
      cases left : t'.remaining with
      | nil => rfl
      | cons l ls => exact absurd (next l (by rw [left]; rfl)) (Nat.not_lt_zero _)
    obtain ⟨root, declared⟩ := firm.wellFormed.root
    obtain ⟨u, set⟩ := firm.wellFormed.setFunction_isOk ⟨[], stmts⟩ declared rfl
    have entry : t'.symbols.redefine SymbolTree.root (fun f => { f with body := stmts }) = some u :=
      redefine_eq set fun was found => by
        cases firm.entry.symm.trans found
        rfl
    change (t'.symbols.redefine _ _).bind _ = _
    rw [entry, same, read, State.start, State.addAll_entry, List.append_nil]
    change some (.ok u) = some (atLine 0 (SymbolTree.setFunction t'.symbols _ ⟨[], stmts.reverse.reverse⟩))
    rw [List.reverse_reverse, set]
    rfl

end Offside.Module
