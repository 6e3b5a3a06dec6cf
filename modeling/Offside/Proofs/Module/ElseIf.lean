import Mathlib
import Offside.Proofs.Module.Nest
import Offside.Proofs.Module.Renumber
import Offside.Proofs.Module.Room

/-!
An else line that goes on with an if statement, against a bare else line with the if statement in
its block. The bare line is never refused by itself: its block is no deeper than the if statement
before it, with the arms of its chain, may have been, and statements may stand where it stands.
-/

namespace Offside

namespace Module

/-- Lines that belong to a chain at level `i`: all that are deeper, and its else lines. -/
def inChain (i : Nat) (l : Line) : Bool :=
  i < l.indentation || (l.indentation == i && (afterElse? l.lexemes).isSome)

/-- The lines behind an arm at level `i`, with those of its chain one level deeper. -/
def deepened (i : Nat) (ls : List Line) : List Line :=
  (ls.takeWhile (inChain i)).map (fun l => { l with indentation := l.indentation + 1 }) ++
    ls.dropWhile (inChain i)

theorem inChain_iff {i : Nat} {l : Line} : inChain i l ↔ i < l.indentation ∨
    l.indentation = i ∧ (afterElse? l.lexemes).isSome := by
  simp [inChain]

namespace State

variable {config : Config} {s t : State} {arm : Arm} {chain : List Arm} {n i : Nat}
  {outer : List Block} {e f : Lexeme} {header : List Lexeme}

theorem step_innermost {ws : List Lexeme} (plain : afterElse? ws = none) :
    s.step config ⟨n, s.blocks.length, ws⟩ = s.read config n ws := by
  have here : s.leaveTo s.blocks.length = .ok s := leaveTo_of_le (Nat.le_refl _)
  rw [step_of_not_else (Nat.le_refl _) plain]
  simp only [here]
  rfl

theorem step_header {outer : State} (free : outer.directlyInClass = false)
    (isIf : f.kind = .keyword .if_) : Agree (Nests arm chain n outer.blocks)
      ({ outer with blocks := ⟨.else_ arm chain, n, []⟩ :: outer.blocks }.step config
        ⟨n, outer.blocks.length + 1, f :: header⟩)
      (outer.otherwise config n (f :: header) arm chain) := by
  have plain : afterElse? (f :: header) = none := by simp [afterElse?, isIf]
  have inside (s : State) (here : s.directlyInClass = false) :
      s.step config ⟨n, s.blocks.length, f :: header⟩ = s.openIf config n header [] := by
    rw [step_innermost plain]
    simp [read, isIf, here]
  have outside : outer.otherwise config n (f :: header) arm chain =
      outer.openIf config n header (arm :: chain) := if_pos isIf
  rw [outside]
  have opened := inside { outer with blocks := ⟨.else_ arm chain, n, []⟩ :: outer.blocks } free
  rw [List.length_cons] at opened
  rw [opened]
  exact .same fun c _ => enter_prolongs (.if_ c []) outer n

theorem step_elseIf (h : Roomy config.maxDepth s.openers) (isElse : e.kind = .keyword .else_)
    (isIf : f.kind = .keyword .if_) :
    Agree (fun u t => ∃ arm chain outer, outer.length = i ∧ Nests arm chain n outer u t)
      (s.step config ⟨n, i, [e]⟩ >>= fun u => u.step config ⟨n, i + 1, f :: header⟩)
      (s.step config ⟨n, i, e :: f :: header⟩) := by
  by_cases deep : s.blocks.length < i
  · rw [step, if_pos deep, step, if_pos deep]
    exact rfl
  cases left : s.leaveTo (i + 1) with
  | error =>
    rw [step, if_neg deep, step, if_neg deep, left]
    exact rfl
  | ok v =>
    cases found : v.openArm? i with
    | none =>
      have refused (rest : List Lexeme) : s.step config ⟨n, i, e :: rest⟩ =
          v.leaveTo i >>= fun _ => .error .elseWithoutIf := by
        rw [step, if_neg deep, left]
        simp only [bind, Except.bind, found, read_else isElse]
      rw [refused, refused]
      cases v.leaveTo i <;> exact rfl
    | some found' =>
      obtain ⟨arm, chain, outer⟩ := found'
      obtain ⟨level, room, free, -⟩ := roomy_openArm (roomy_leaveTo h left) found
      have le := Nat.not_lt.1 deep
      have bare : s.step config ⟨n, i, [e]⟩ =
          .ok { outer with blocks := ⟨.else_ arm chain, n, []⟩ :: outer.blocks } := by
        rw [step_else le rfl isElse left found]
        exact enter_eq_ok.2 ⟨room, rfl⟩
      rw [bare, step_else le rfl isElse left found]
      subst level
      exact (step_header free isIf).mono fun u t nests => ⟨arm, chain, outer.blocks, rfl, nests⟩

/-- On the lines: those of the chain are read inside of the arm, all others outside. -/
theorem Nests.readAll (h : Nests arm chain n outer s t) (ls : List Line) :
    (s.readAll config (deepened outer.length ls) >>= fun s => atLine 0 s.done) =
      t.readAll config ls >>= fun t => atLine 0 t.done := by
  induction ls generalizing s t with
  | nil =>
    have closed := h.leaveTo_eq (Nat.zero_le _)
    show atLine 0 s.done = atLine 0 t.done
    rw [done, done, closed]
  | cons l ls ih =>
    cases within : inChain outer.length l with
    | true =>
      have deeper : deepened outer.length (l :: ls) =
          { l with indentation := l.indentation + 1 } :: deepened outer.length ls := by
        simp [deepened, within]
      have agree := h.step config (inChain_iff.1 within)
      rw [deeper, readAll_cons, readAll_cons, bind_assoc, bind_assoc]
      exact agree.atLine_bind fun u v next => ih next
    | false =>
      have same : deepened outer.length (l :: ls) = l :: ls := by simp [deepened, within]
      have step := h.step_eq config (l := l) (fun inside => by
        rw [inChain_iff.2 inside] at within
        cases within)
      rw [same, readAll_cons, readAll_cons, step]

end State

variable {config : Config} {name : String} {before after : List Line} {n i : Nat}
  {e f : Lexeme} {header : List Lexeme}

theorem symbolsOf_nested (isElse : e.kind = .keyword .else_) (isIf : f.kind = .keyword .if_) :
    symbolsOf config name (before ++ ⟨n, i, [e]⟩ :: ⟨n, i + 1, f :: header⟩ :: deepened i after) =
      symbolsOf config name (before ++ ⟨n, i, e :: f :: header⟩ :: after) := by
  rw [symbolsOf, symbolsOf, State.readAll_append, State.readAll_append]
  cases read : (State.start name).readAll config before with
  | error => rfl
  | ok s =>
    have roomy := State.roomy_readAll .nil read
    have two (rest : List Line) :
        s.readAll config (⟨n, i, [e]⟩ :: ⟨n, i + 1, f :: header⟩ :: rest) =
          atLine n (s.step config ⟨n, i, [e]⟩ >>= fun u =>
            u.step config ⟨n, i + 1, f :: header⟩) >>= fun u => u.readAll config rest := by
      rw [readAll_cons]
      cases s.step config ⟨n, i, [e]⟩ with
      | error => rfl
      | ok u => exact readAll_cons _
    show (s.readAll config _ >>= _) = (s.readAll config _ >>= _)
    rw [two, readAll_cons, bind_assoc, bind_assoc]
    refine (State.step_elseIf roomy isElse isIf).atLine_bind fun u t nested => ?_
    obtain ⟨arm, chain, outer, rfl, nests⟩ := nested
    exact nests.readAll after

/-- An else-if line is short for a bare else line with an if line in its block, whatever the lines
are numbered: both forms are accepted or refused together, come to the same symbols but for the
numbers at statements, and are refused with the same words. -/
theorem symbolsOf_elseIf (config : Config) (name : String) (before after : List Line) (n i : Nat)
    (e f : Lexeme) (header : List Lexeme) (ls : List Line) (isElse : e.kind = .keyword .else_)
    (isIf : f.kind = .keyword .if_) (nested : ls.map (Line.renumber fun _ => 0) =
      (before ++ ⟨n, i, [e]⟩ :: ⟨n, i + 1, f :: header⟩ :: deepened i after).map
        (Line.renumber fun _ => 0)) :
    let chained := before ++ ⟨n, i, e :: f :: header⟩ :: after
    ((∃ t, symbolsOf config name chained = .ok t) ↔ ∃ t, symbolsOf config name ls = .ok t) ∧
      (∀ t u, symbolsOf config name chained = .ok t → symbolsOf config name ls = .ok u →
        t.renumber (fun _ => 0) = u.renumber (fun _ => 0)) ∧
      ∀ a b, symbolsOf config name chained = .error a → symbolsOf config name ls = .error b →
        a.diagnostic.kind = b.diagnostic.kind ∧ a.diagnostic.message = b.diagnostic.message ∧
          a.diagnostic.help = b.diagnostic.help := by
  intro chained
  have same := symbolsOf_renumber (fun _ => 0) config name ls
  rw [nested, symbolsOf_renumber, symbolsOf_nested isElse isIf] at same
  cases ht : symbolsOf config name chained <;> cases hu : symbolsOf config name ls <;>
    rw [ht, hu] at same
  · refine ⟨by simp, by simp, fun a b ha hb => ?_⟩
    cases ha
    cases hb
    have fault := congrArg Error.fault (Except.error.inj same)
    exact ⟨congrArg Fault.kind fault, congrArg Fault.message fault, congrArg Fault.help fault⟩
  · cases same
  · cases same
  · refine ⟨by simp, fun t u ht hu => ?_, by simp⟩
    cases ht
    cases hu
    exact Except.ok.inj same

theorem symbolsOf_elseIf_three :
    let word (k : Keyword) : Lexeme := ⟨.keyword k, none⟩
    let chained : List Line := [⟨1, 0, [word .if_, .ofWord "a"]⟩, ⟨2, 1, [word .return_]⟩,
      ⟨3, 0, [word .else_, word .if_, .ofWord "b"]⟩, ⟨4, 1, [word .return_]⟩,
      ⟨5, 0, [word .else_]⟩, ⟨6, 1, [word .return_]⟩, ⟨7, 0, [.ofWord "c"]⟩]
    let nested : List Line := [⟨1, 0, [word .if_, .ofWord "a"]⟩, ⟨2, 1, [word .return_]⟩,
      ⟨3, 0, [word .else_]⟩, ⟨4, 1, [word .if_, .ofWord "b"]⟩, ⟨5, 2, [word .return_]⟩,
      ⟨6, 1, [word .else_]⟩, ⟨7, 2, [word .return_]⟩, ⟨8, 0, [.ofWord "c"]⟩]
    let name (x : String) : Expr := .ident ⟨x, .none⟩
    let leaves (n : Nat) : List Stmt := [.return_ (.literal .nil) n]
    let tree : SymbolTree := ⟨#[⟨"m", .function, none, [], some ⟨[], [.ifElse (name "a") (leaves 2)
      [.ifElse (name "b") (leaves 4) (leaves 6) 3] 1, .expr (name "c") 7]⟩⟩]⟩
    (symbolsOf {} "m" chained = .ok tree ∧ ∃ u, symbolsOf {} "m" nested = .ok u ∧
      tree.renumber (fun _ => 0) = u.renumber (fun _ => 0)) ∧
    symbolsOf ⟨.tabs, 1⟩ "m" chained = .error ⟨3, .tooDeep .blocks 1⟩ ∧
      ∃ e, symbolsOf ⟨.tabs, 1⟩ "m" nested = .error e ∧ e.diagnostic.kind = .parse ∧
        e.diagnostic.message = "Nesting too deep" := by
  intro word chained nested name leaves tree
  have sugar (config : Config) := symbolsOf_elseIf config "m" (chained.take 2) (chained.drop 3) 3 0
    (word .else_) (word .if_) [.ofWord "b"] nested rfl rfl rfl
  have accepts : symbolsOf {} "m" chained = .ok tree := by cbv
  have tooDeep : symbolsOf ⟨.tabs, 1⟩ "m" chained = .error ⟨3, .tooDeep .blocks 1⟩ := by cbv
  obtain ⟨accepted, equal, -⟩ := sugar {}
  obtain ⟨accepted', -, worded⟩ := sugar ⟨.tabs, 1⟩
  obtain ⟨u, hu⟩ := accepted.1 ⟨tree, accepts⟩
  refine ⟨⟨accepts, u, hu, equal tree u accepts hu⟩, tooDeep, ?_⟩
  cases h : symbolsOf ⟨.tabs, 1⟩ "m" nested with
  | ok v =>
    obtain ⟨w, hw⟩ := accepted'.2 ⟨v, h⟩
    cases tooDeep.symm.trans hw
  | error e =>
    obtain ⟨kind, message, -⟩ := worded _ e tooDeep h
    exact ⟨e, rfl, kind.symm, message.symm⟩

end Module

end Offside
