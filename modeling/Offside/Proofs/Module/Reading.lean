import Offside.Proofs.Module.Effect

/-!
What a line says, or what is wrong with it, as a function of its lexemes. It depends on the
lines before only in whether a class is around; what the line does to them comes after.
-/

namespace Offside

namespace Header

section Parse

variable (s : Expr.Setting)

def parseFor (ws : List Lexeme) : Except Fault Header :=
  Expr.parseStatements s ws >>= fun terms =>
    match terms with
    | [init, condition, step] => .ok (for_ init condition step)
    | _ => .error .malformedFor

def parseForeach : List Lexeme → Except Fault Header
  | item :: word :: container =>
    match item.plainName? with
    | some name =>
      if word.kind = .keyword .in_ then
        (Expr.parseStatement s container).map (foreach ⟨name, .none⟩)
      else .error .malformedForeach
    | none => .error .malformedForeach
  | _ => .error .malformedForeach

def parseReturn (ws : List Lexeme) : Except Fault Header :=
  if ws.isEmpty then .ok (return_ (.literal .nil)) else (Expr.parseStatement s ws).map return_

/-- A line that goes on with no if statement. Only declarations are read directly in a class. -/
def parse (directlyInClass : Bool) (first : Lexeme) (rest : List Lexeme) : Except Fault Header :=
  match first.kind with
  | .keyword .class_ =>
    match rest.mapM (·.plainName?) with
    | some [name] => .ok (.class_ name)
    | _ => .error .malformedClass
  | .keyword .function =>
    match rest.mapM (·.plainName?) with
    | some (name :: arguments) => .ok (.function name arguments)
    | _ => .error .malformedFunction
  | .keyword .else_ => .error .elseWithoutIf
  | kind =>
    if directlyInClass then .error .outsideFunction
    else
      match kind with
      | .keyword .if_ => (Expr.parseStatement s rest).map if_
      | .keyword .while_ => (Expr.parseStatement s rest).map while_
      | .keyword .for_ => parseFor s rest
      | .keyword .foreach => parseForeach s rest
      | .keyword .return_ => parseReturn s rest
      | _ => (Expr.parseStatement s (first :: rest)).map expression

def parseElse : List Lexeme → Except Fault Header
  | [] => .ok else_
  | first :: rest =>
    if first.kind = .keyword .if_ then (Expr.parseStatement s rest).map elseIf
    else .error .malformedElse

theorem mapM_eq_singleton {α β : Type} {f : α → Option β} {xs : List α} {y : β}
    (h : xs.mapM f = some [y]) : ∃ x, xs = [x] ∧ f x = some y := by
  match xs with
  | [] => simp at h
  | [x] => exact ⟨x, rfl, by simpa [Option.bind_eq_some_iff] using h⟩
  | _ :: _ :: _ => simp [List.mapM_cons, Option.bind_eq_some_iff] at h

section Reads

variable {s} {direct : Bool} {first : Lexeme} {rest : List Lexeme} {h : Header}

theorem reads_of_parseFor (kind : first.kind = .keyword .for_) (ok : parseFor s rest = .ok h) :
    h.Reads s (first :: rest) := by
  obtain ⟨terms, parses, ok⟩ := bind_eq_ok.1 ok
  split at ok
  · cases ok
    exact .for_ kind parses
  · cases ok

theorem reads_of_parseForeach (kind : first.kind = .keyword .foreach)
    (ok : parseForeach s rest = .ok h) : h.Reads s (first :: rest) := by
  unfold parseForeach at ok
  split at ok
  · split at ok
    · next plain =>
      split at ok
      · next word =>
        obtain ⟨c, parses, rfl⟩ := map_eq_ok.1 ok
        exact .foreach kind plain word parses
      · cases ok
    · cases ok
  · cases ok

theorem reads_of_parseReturn (kind : first.kind = .keyword .return_)
    (ok : parseReturn s rest = .ok h) : h.Reads s (first :: rest) := by
  unfold parseReturn at ok
  split at ok
  · next empty =>
    cases List.isEmpty_iff.1 empty
    cases ok
    exact .nothing kind
  · next some =>
    obtain ⟨e, parses, rfl⟩ := map_eq_ok.1 ok
    exact .return_ kind (by simpa using some) parses

theorem reads_of_parse (ok : parse s direct first rest = .ok h) : h.Reads s (first :: rest) := by
  have expression (role : Role.of (first :: rest) = .expression)
      (ok : (Expr.parseStatement s (first :: rest)).map expression = .ok h) :
      h.Reads s (first :: rest) := by
    obtain ⟨e, parses, rfl⟩ := map_eq_ok.1 ok
    exact .expression (List.cons_ne_nil _ _) role parses
  cases kind : first.kind with
  | keyword k =>
    simp only [parse, kind] at ok
    cases k with
    | class_ =>
      simp only at ok
      split at ok <;> cases ok
      next names =>
      obtain ⟨x, rfl, plain⟩ := mapM_eq_singleton names
      exact .class_ kind plain
    | function =>
      simp only at ok
      split at ok <;> cases ok
      next names => exact .function kind names
    | else_ => cases ok
    | if_ =>
      obtain ⟨c, parses, rfl⟩ := map_eq_ok.1 (Module.State.unless_eq_ok.1 ok).2
      exact .if_ kind parses
    | while_ =>
      obtain ⟨c, parses, rfl⟩ := map_eq_ok.1 (Module.State.unless_eq_ok.1 ok).2
      exact .while_ kind parses
    | for_ => exact reads_of_parseFor kind (Module.State.unless_eq_ok.1 ok).2
    | foreach => exact reads_of_parseForeach kind (Module.State.unless_eq_ok.1 ok).2
    | return_ => exact reads_of_parseReturn kind (Module.State.unless_eq_ok.1 ok).2
    | in_ => exact expression (by simp [Role.of, kind]) (Module.State.unless_eq_ok.1 ok).2
  | _ =>
    simp only [parse, kind] at ok
    exact expression (by simp [Role.of, kind]) (Module.State.unless_eq_ok.1 ok).2

theorem reads_of_parseElse (kind : first.kind = .keyword .else_) (ok : parseElse s rest = .ok h) :
    h.Reads s (first :: rest) := by
  unfold parseElse at ok
  split at ok
  · cases ok
    exact .else_ kind
  · split at ok
    · next word =>
      obtain ⟨c, parses, rfl⟩ := map_eq_ok.1 ok
      exact .elseIf kind word parses
    · cases ok

end Reads

end Parse

end Header

namespace Module.State

variable {config : Config} {line : Nat} {s : State} {rest : List Lexeme}

theorem perform_of_opener {h : Header} {opener : Opener} (opens : h.opener? = some opener) :
    s.perform config line h =
      if s.directlyInClass then .error .outsideFunction
      else s.enter config.maxDepth opener line := by
  cases h <;> cases opens <;> rfl

theorem perform_of_leaf {h : Header} {stmt : Stmt} (leaf : h.leaf? line = some stmt) :
    s.perform config line h =
      if s.directlyInClass then .error .outsideFunction else .ok (s.add stmt) := by
  cases h <;> cases leaf <;> rfl

section Statements

variable (free : s.directlyInClass = false)

include free

theorem enter_eq_perform {h : Header} {opener : Opener} (opens : h.opener? = some opener) :
    s.enter config.maxDepth opener line = s.perform config line h := by
  rw [perform_of_opener opens, free]
  rfl

theorem add_eq_perform (config : Config) {h : Header} {stmt : Stmt}
    (leaf : h.leaf? line = some stmt) : .ok (s.add stmt) = s.perform config line h := by
  rw [perform_of_leaf leaf, free]
  rfl

theorem enter_statement {say : Expr → Header} (make : Expr → Opener)
    (opens : ∀ e, (say e).opener? = some (make e)) :
    (s.statement config rest >>= fun e => s.enter config.maxDepth (make e) line) =
      (Expr.parseStatement (s.setting config) rest).map say >>= s.perform config line := by
  rw [statement]
  cases Expr.parseStatement (s.setting config) rest with
  | error f => rfl
  | ok e => exact enter_eq_perform free (opens e)

theorem add_statement {say : Expr → Header} (make : Expr → Stmt)
    (leaf : ∀ e, (say e).leaf? line = some (make e)) :
    (s.statement config rest >>= fun e => .ok (s.add (make e))) =
      (Expr.parseStatement (s.setting config) rest).map say >>= s.perform config line := by
  rw [statement]
  cases Expr.parseStatement (s.setting config) rest with
  | error f => rfl
  | ok e => exact add_eq_perform free config (leaf e)

theorem openFor_eq : s.openFor config line rest =
    Header.parseFor (s.setting config) rest >>= s.perform config line := by
  rw [openFor, Header.parseFor, bind_assoc]
  refine congrArg _ (funext fun terms => ?_)
  rcases terms with _ | ⟨init, _ | ⟨c, _ | ⟨step, _ | _⟩⟩⟩
  case cons.cons.cons.nil =>
    exact enter_eq_perform free (h := .for_ init c step) rfl
  all_goals rfl

theorem openForeach_eq : s.openForeach config line rest =
    Header.parseForeach (s.setting config) rest >>= s.perform config line := by
  rcases rest with _ | ⟨item, _ | ⟨word, container⟩⟩
  · rfl
  · rfl
  rw [openForeach, Header.parseForeach]
  cases item.plainName? with
  | none => rfl
  | some name =>
    simp only
    split
    · exact enter_statement free (.foreach ⟨name, .none⟩) fun _ => rfl
    · rfl

theorem addReturn_eq : s.addReturn config line rest =
    Header.parseReturn (s.setting config) rest >>= s.perform config line := by
  rw [addReturn, Header.parseReturn]
  split
  · exact add_eq_perform free config (h := .return_ (.literal .nil)) rfl
  · exact add_statement free (.return_ · line) fun _ => rfl

end Statements

theorem unless_eq_bind {α β : Type} {c : Bool} {f : Fault} {x : Except Fault β}
    {y : Except Fault α} {g : α → Except Fault β} (h : c = false → x = y >>= g) :
    (if c then .error f else x) = (if c then .error f else y) >>= g := by
  cases c with
  | true => rfl
  | false => exact h rfl

theorem read_cons (config : Config) (line : Nat) (s : State) (first : Lexeme)
    (rest : List Lexeme) : s.read config line (first :: rest) =
      Header.parse (s.setting config) s.directlyInClass first rest >>= s.perform config line := by
  cases kind : first.kind with
  | keyword k =>
    cases k with
    | class_ =>
      simp only [read, Header.parse, kind, declareClass]
      rcases rest.mapM Lexeme.plainName? with _ | _ | ⟨name, _ | _⟩ <;> rfl
    | function =>
      simp only [read, Header.parse, kind, declareFunction]
      rcases rest.mapM Lexeme.plainName? with _ | _ | ⟨name, arguments⟩ <;> rfl
    | else_ =>
      simp only [read, Header.parse, kind]
      rfl
    | if_ =>
      simp only [read, Header.parse, kind]
      exact unless_eq_bind fun free => enter_statement free (.if_ · []) fun _ => rfl
    | while_ =>
      simp only [read, Header.parse, kind]
      exact unless_eq_bind fun free => enter_statement free .while_ fun _ => rfl
    | for_ =>
      simp only [read, Header.parse, kind]
      exact unless_eq_bind openFor_eq
    | foreach =>
      simp only [read, Header.parse, kind]
      exact unless_eq_bind openForeach_eq
    | return_ =>
      simp only [read, Header.parse, kind]
      exact unless_eq_bind addReturn_eq
    | in_ =>
      simp only [read, Header.parse, kind]
      exact unless_eq_bind fun free => add_statement free (.expr · line) fun _ => rfl
  | _ =>
    simp only [read, Header.parse, kind]
    exact unless_eq_bind fun free => add_statement free (.expr · line) fun _ => rfl

theorem otherwise_eq_parse (config : Config) (line : Nat) (s : State) (rest : List Lexeme)
    (arm : Arm) (chain : List Arm) : s.otherwise config line rest arm chain =
      Header.parseElse (s.setting config) rest >>= s.resume config line arm chain := by
  cases rest with
  | nil => rfl
  | cons first rest =>
    rw [otherwise, Header.parseElse]
    split
    · rw [openIf, statement]
      cases Expr.parseStatement (s.setting config) rest <;> rfl
    · rfl

theorem reads_of_read {s' : State} {ws : List Lexeme} (ne : ws ≠ [])
    (ok : s.read config line ws = .ok s') : ∃ h : Header, h.Reads (s.setting config) ws := by
  cases ws with
  | nil => exact absurd rfl ne
  | cons first rest =>
    rw [read_cons] at ok
    obtain ⟨h, parses, -⟩ := bind_eq_ok.1 ok
    exact ⟨h, Header.reads_of_parse parses⟩

theorem reads_of_otherwise {s' : State} {first : Lexeme} {arm : Arm} {chain : List Arm}
    (kind : first.kind = .keyword .else_) (ok : s.otherwise config line rest arm chain = .ok s') :
    ∃ h : Header, h.Reads (s.setting config) (first :: rest) := by
  rw [otherwise_eq_parse] at ok
  obtain ⟨h, parses, -⟩ := bind_eq_ok.1 ok
  exact ⟨h, Header.reads_of_parseElse kind parses⟩

end Module.State

end Offside
