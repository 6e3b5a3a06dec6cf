import Mathlib
import Offside.Proofs.Expr.Fault
import Offside.Proofs.Module.Declare
import Offside.Proofs.Module.Reading
import Offside.Proofs.Scan.Fault
import Offside.Proofs.Symbol.Outline
import Offside.Run

/-!
Modules are blameless. An open class or function is a symbol declared before, so that scopes
exist and finished bodies find their functions; this holds after every line, whatever the lines
are. Main statement: no source is answered with an internal error.
-/

namespace Offside

namespace SymbolTree

variable {t u : SymbolTree} {scope : Nat}

theorem declare_blameless (lt : scope < t.size) (name : String) (kind : SymbolKind) :
    Blameless Any (t.declare scope name kind) := by
  obtain ⟨s, known⟩ := get?_isSome_of_lt lt
  unfold declare
  simp only [known]
  split
  · exact nofun
  · trivial

theorem declarations_prefix_declare {name : String} {kind : SymbolKind} {id : Nat}
    (h : t.declare scope name kind = .ok (u, id)) : t.declarations <+: u.declarations :=
  declarations_declare h ▸ List.prefix_append ..

end SymbolTree

namespace Header

variable (s : Expr.Setting)

theorem say_blameless (ws : List Lexeme) (make : Expr → Header) :
    Blameless Any ((Expr.parseStatement s ws).map make) :=
  (Expr.parseStatement_blameless s ws).map fun _ _ => trivial

theorem parseFor_blameless (ws : List Lexeme) : Blameless Any (parseFor s ws) := by
  refine (Expr.parseStatements_blameless s ws).bind fun terms _ => ?_
  split
  · trivial
  · rintro ⟨⟩

theorem parseForeach_blameless (ws : List Lexeme) : Blameless Any (parseForeach s ws) := by
  unfold parseForeach
  split
  · split
    · split
      · exact say_blameless s _ _
      · rintro ⟨⟩
    · rintro ⟨⟩
  · rintro ⟨⟩

theorem parseReturn_blameless (ws : List Lexeme) : Blameless Any (parseReturn s ws) := by
  unfold parseReturn
  split
  · trivial
  · exact say_blameless s ws return_

theorem parse_blameless (direct : Bool) (first : Lexeme) (rest : List Lexeme) :
    Blameless Any (parse s direct first rest) := by
  unfold parse
  split
  · split
    · trivial
    · rintro ⟨⟩
  · split
    · trivial
    · rintro ⟨⟩
  · rintro ⟨⟩
  · split
    · rintro ⟨⟩
    · split
      · exact say_blameless s rest if_
      · exact say_blameless s rest while_
      · exact parseFor_blameless s rest
      · exact parseForeach_blameless s rest
      · exact parseReturn_blameless s rest
      · exact say_blameless s (first :: rest) expression

theorem parseElse_blameless (ws : List Lexeme) : Blameless Any (parseElse s ws) := by
  unfold parseElse
  split
  · trivial
  · split
    · exact say_blameless s _ elseIf
    · rintro ⟨⟩

end Header

namespace Module

open SymbolTree

variable {t u : SymbolTree} {opener : Opener} {s : State} {config : Config}

theorem declared_of_prefix (grows : t.declarations <+: u.declarations) {id : Nat}
    {d : Declaration} (h : t.declarations[id]? = some d) : u.declarations[id]? = some d := by
  obtain ⟨lt, -⟩ := List.getElem?_eq_some_iff.1 h
  obtain ⟨more, eq⟩ := grows
  rw [← eq, List.getElem?_append_left lt, h]

def Opener.Known (t : SymbolTree) : Opener → Prop
  | .class_ id => id < t.size
  | .function id _ => ∃ d, t.declarations[id]? = some d ∧ d.kind = .function
  | _ => True

theorem Opener.Known.of_header {h : Header} (opens : h.opener? = some opener) :
    opener.Known t := by
  cases h <;> cases opens <;> trivial

theorem Opener.Known.mono (h : opener.Known t) (grows : t.declarations <+: u.declarations) :
    opener.Known u := by
  cases opener with
  | class_ id =>
    have le := grows.length_le
    simp only [SymbolTree.length_declarations] at le
    exact Nat.lt_of_lt_of_le h le
  | function id arguments =>
    obtain ⟨d, declared, kind⟩ := h
    exact ⟨d, declared_of_prefix grows declared, kind⟩
  | _ => trivial

theorem Opener.Known.scope_lt (h : opener.Known t) {id : Nat} (scope : opener.scope? = some id) :
    id < t.size := by
  cases opener <;> cases scope
  case class_ => exact h
  case function =>
    obtain ⟨d, declared, -⟩ := h
    exact lt_size_of_declared declared

structure State.Sound (s : State) : Prop where
  wellFormed : s.symbols.WellFormed
  known : ∀ b ∈ s.blocks, b.opener.Known s.symbols

namespace State.Sound

theorem start (name : String) : (State.start name).Sound where
  wellFormed := .new name
  known _ hb := absurd hb List.not_mem_nil

theorem scope_lt (h : s.Sound) : s.scope < s.symbols.size := by
  unfold scope
  cases found : s.blocks.findSome? (·.opener.scope?) with
  | none => exact h.wellFormed.root_lt
  | some id =>
    obtain ⟨b, hb, scope⟩ := List.exists_of_findSome?_eq_some found
    exact (h.known b hb).scope_lt scope

theorem grow (h : s.Sound) (wf : t.WellFormed)
    (grows : s.symbols.declarations <+: t.declarations) : { s with symbols := t }.Sound where
  wellFormed := wf
  known b hb := (h.known b hb).mono grows

theorem add (h : s.Sound) (stmt : Stmt) : (s.add stmt).Sound := by
  obtain ⟨symbols, entry, blocks⟩ := s
  obtain ⟨wf, known⟩ := h
  cases blocks with
  | nil => exact ⟨wf, known⟩
  | cons b outer =>
    rw [List.forall_mem_cons] at known
    exact ⟨wf, List.forall_mem_cons.2 known⟩

section Ends

theorem finish {b : Block} (h : s.Sound) (known : b.opener.Known s.symbols) :
    ∃ t, s.finish b = .ok t ∧ t.Sound := by
  obtain ⟨opener, line, body⟩ := b
  cases opener with
  | class_ id => exact ⟨s, rfl, h⟩
  | function id arguments =>
    obtain ⟨d, declared, kind⟩ := known
    obtain ⟨u, hu⟩ := h.wellFormed.setFunction_isOk ⟨arguments, body.reverse⟩ declared kind
    refine ⟨{ s with symbols := u }, ?_, h.grow (h.wellFormed.setFunction hu) ?_⟩
    · simp only [State.finish, hu]
      rfl
    · exact (declarations_setFunction hu).symm ▸ List.prefix_rfl
  | _ => exact ⟨_, rfl, h.add _⟩

theorem leave (h : s.Sound) : ∃ t, s.leave = .ok t ∧ t.Sound := by
  unfold State.leave
  split
  · exact ⟨s, rfl, h⟩
  · next b outer eq =>
    have known := h.known
    rw [eq, List.forall_mem_cons] at known
    have outside : { s with blocks := outer }.Sound := ⟨h.wellFormed, known.2⟩
    exact outside.finish known.1

theorem leaveMany (n : Nat) (h : s.Sound) : ∃ t, s.leaveMany n = .ok t ∧ t.Sound := by
  induction n generalizing s with
  | zero => exact ⟨s, rfl, h⟩
  | succ n ih =>
    obtain ⟨u, hu, sound⟩ := h.leave
    obtain ⟨t, ht, sound⟩ := ih sound
    exact ⟨t, bind_eq_ok.2 ⟨u, hu, ht⟩, sound⟩

theorem leaveTo (height : Nat) (h : s.Sound) : Blameless Sound (s.leaveTo height) :=
  .of_ok (h.leaveMany _)

theorem done (h : s.Sound) : Blameless WellFormed s.done := by
  refine (h.leaveTo 0).bind fun t sound => ?_
  obtain ⟨name, root⟩ := sound.wellFormed.root
  obtain ⟨u, hu⟩ := sound.wellFormed.setFunction_isOk ⟨[], t.entry.reverse⟩ root rfl
  exact .of_ok ⟨u, hu, sound.wellFormed.setFunction hu⟩

end Ends

section Lines

variable (line : Nat)

theorem enter (h : s.Sound) {maxDepth : Nat} (known : opener.Known s.symbols) :
    Blameless Sound (s.enter maxDepth opener line) := by
  unfold State.enter
  split
  · exact nofun
  · exact ⟨h.wellFormed, List.forall_mem_cons.2 ⟨known, h.known⟩⟩

theorem declareArguments_blameless {id : Nat} (arguments : List String) (wf : t.WellFormed)
    (lt : id < t.size) : Blameless Any (State.declareArguments id arguments t) := by
  induction arguments generalizing t with
  | nil => trivial
  | cons x arguments ih =>
    rw [declareArguments_cons]
    refine (declare_blameless lt x .variable_).result.bind fun ⟨u, j⟩ hu => ?_
    have size := (size_declare hu).2
    exact ih (wf.declare hu) (show id < u.size by omega)

theorem perform (config : Config) (h : s.Sound) (header : Header) :
    Blameless Sound (s.perform config line header) := by
  cases header using Header.byEffect with
  | opens said opener opens =>
    rw [perform_of_opener opens]
    split
    · exact nofun
    · exact h.enter line (.of_header opens)
  | leaf said leaf =>
    obtain ⟨stmt, leaf⟩ := leaf line
    rw [perform_of_leaf leaf]
    split
    · exact nofun
    · exact h.add stmt
  | class_ name =>
    refine (declare_blameless h.scope_lt name .class_).result.bind fun ⟨u, id⟩ hu => ?_
    have size := size_declare hu
    have known : Opener.Known u (.class_ id) := show id < u.size by omega
    have grown := h.grow (h.wellFormed.declare hu) (declarations_prefix_declare hu)
    exact grown.enter line known
  | function name arguments =>
    refine (declare_blameless h.scope_lt name .function).result.bind fun ⟨u, id⟩ hu => ?_
    have wf := h.wellFormed.declare hu
    have size := size_declare hu
    have latest : u.declarations[id]? = some ⟨name, .function, some s.scope⟩ :=
      (declarations_declare_eq_some hu).2 (.inr ⟨size.1, rfl⟩)
    refine (declareArguments_blameless arguments wf (by omega)).result.bind fun v hv => ?_
    obtain ⟨wf', -, -, declarations⟩ := declareArguments_spec wf hv
    have grows : u.declarations <+: v.declarations := declarations ▸ List.prefix_append ..
    have known : Opener.Known v (.function id arguments) :=
      ⟨_, declared_of_prefix grows latest, rfl⟩
    have grown := h.grow wf' ((declarations_prefix_declare hu).trans grows)
    exact grown.enter line known
  | elseIf | else_ => exact nofun

theorem resume (config : Config) (h : s.Sound) (arm : Arm) (chain : List Arm) (header : Header) :
    Blameless Sound (s.resume config line arm chain header) := by
  cases header with
  | elseIf | else_ => exact h.enter line trivial
  | _ => exact nofun

theorem read (config : Config) (h : s.Sound) (lexemes : List Lexeme) :
    Blameless Sound (s.read config line lexemes) := by
  cases lexemes with
  | nil => exact h
  | cons first rest =>
    rw [read_cons]
    exact (Header.parse_blameless ..).bind fun said _ => h.perform line config said

theorem otherwise (config : Config) (h : s.Sound) (rest : List Lexeme) (arm : Arm)
    (chain : List Arm) : Blameless Sound (s.otherwise config line rest arm chain) := by
  rw [otherwise_eq_parse]
  exact (Header.parseElse_blameless ..).bind fun said _ => h.resume line config arm chain said

theorem openArm? {height : Nat} {arm : Arm} {chain : List Arm} {outer : State} (h : s.Sound)
    (open_ : s.openArm? height = some (arm, chain, outer)) : outer.Sound := by
  unfold State.openArm? at open_
  split at open_
  · next blocks =>
    split at open_
    · cases open_
      have known := h.known
      rw [blocks, List.forall_mem_cons] at known
      exact ⟨h.wellFormed, known.2⟩
    · cases open_
  · cases open_

theorem step (h : s.Sound) (config : Config) (l : Line) : Blameless Sound (s.step config l) := by
  unfold State.step
  split
  · exact nofun
  · refine (h.leaveTo _).bind fun t sound => ?_
    split
    · next arm chain outer rest open_ _ =>
      exact (sound.openArm? open_).otherwise l.number config rest arm chain
    · exact (sound.leaveTo _).bind fun u sound => sound.read l.number config l.lexemes

end Lines

theorem readAll (h : s.Sound) (config : Config) (lines : List Line) :
    (∀ t, s.readAll config lines = .ok t → t.Sound) ∧
      ∀ e, s.readAll config lines = .error e → e.fault.kind ≠ .internal := by
  induction lines generalizing s with
  | nil => exact ⟨fun t ht => Except.ok.inj ht ▸ h, nofun⟩
  | cons l lines ih =>
    have stepped := h.step config l
    rw [State.readAll, List.foldlM_cons]
    cases read : s.step config l with
    | error f =>
      rw [read] at stepped
      refine ⟨fun t ht => ?_, fun e he => Except.error.inj he ▸ stepped⟩
      cases ht
    | ok t =>
      rw [read] at stepped
      exact ih stepped

end State.Sound

section Build

variable {name : String} {e : Error}

theorem symbolsOf_blameless (config : Config) (name : String) (lines : List Line) :
    (∀ t, symbolsOf config name lines = .ok t → t.WellFormed) ∧
      ∀ e, symbolsOf config name lines = .error e → e.fault.kind ≠ .internal := by
  obtain ⟨ok, error⟩ := (State.Sound.start name).readAll config lines
  constructor
  · intro t h
    obtain ⟨s, read, h⟩ := bind_eq_ok.1 h
    have done := (ok s read).done
    rwa [atLine_eq_ok.1 h] at done
  · intro e h
    rcases bind_eq_error.1 h with h | ⟨s, read, h⟩
    · exact error e h
    · exact (ok s read).done.fault (atLine_eq_error.1 h).2

theorem ofLines_blameless {lines : List Line} (h : ofLines config name lines = .error e) :
    e.fault.kind ≠ .internal :=
  (symbolsOf_blameless config name lines).2 e (map_eq_error.1 h)

theorem ofSource_blameless {source : String} (h : ofSource config name source = .error e) :
    e.fault.kind ≠ .internal := by
  rcases bind_eq_error.1 h with h | ⟨lines, -, h⟩
  · rw [tokenize_lexical h]
    exact nofun
  · exact ofLines_blameless h

theorem text_isOk {m : Module} {source : String} (h : ofSource config name source = .ok m) :
    ∃ text, m.text = .ok text := by
  obtain ⟨lines, -, h⟩ := bind_eq_ok.1 h
  obtain ⟨t, ht, h⟩ := bind_eq_ok.1 h
  have wf := (symbolsOf_blameless config name lines).1 t ht
  obtain ⟨o, ho⟩ := wf.outline_isOk wf.root_lt
  cases h
  exact ⟨_, bind_eq_ok.2 ⟨o, ho, rfl⟩⟩

end Build

end Module

theorem run_blameless {output : Output} {config : Config} {file : Option String}
    {source : String} {e : Error} (h : run output config file source = .error e) :
    e.fault.kind ≠ .internal := by
  cases output with
  | lexemes =>
    rw [tokenize_lexical (map_eq_error.1 h)]
    exact nofun
  | tree =>
    rcases bind_eq_error.1 h with h | ⟨m, built, h⟩
    · exact Module.ofSource_blameless h
    · obtain ⟨text, ht⟩ := Module.text_isOk built
      rw [ht] at h
      cases h

/-- Nothing that can be asked of the front end is answered with an internal error: not the
parsing of any lexemes, whatever they carry, not any list of lines, and not any source. -/
theorem kind_ne_internal :
    (∀ (s : Expr.Setting) (line : Nat) (ws : List Lexeme) (e : Error),
      atLine line (Expr.parseStatement s ws) = .error e → e.diagnostic.kind ≠ .internal) ∧
    (∀ (s : Expr.Setting) (line : Nat) (ws : List Lexeme) (e : Error),
      atLine line (Expr.parseStatements s ws) = .error e → e.diagnostic.kind ≠ .internal) ∧
    (∀ (config : Config) (name : String) (lines : List Line) (e : Error),
      Module.ofLines config name lines = .error e → e.diagnostic.kind ≠ .internal) ∧
    (∀ (config : Config) (name source : String) (e : Error),
      Module.ofSource config name source = .error e → e.diagnostic.kind ≠ .internal) ∧
    ∀ (output : Output) (config : Config) (file : Option String) (source : String) (e : Error),
      run output config file source = .error e → e.diagnostic.kind ≠ .internal := by
  refine ⟨fun s line ws e h => ?_, fun s line ws e h => ?_, fun _ _ _ _ => Module.ofLines_blameless,
    fun _ _ _ _ => Module.ofSource_blameless, fun _ _ _ _ _ => run_blameless⟩
  · exact (Expr.parseStatement_blameless s ws).fault (atLine_eq_error.1 h).2
  · exact (Expr.parseStatements_blameless s ws).fault (atLine_eq_error.1 h).2

theorem kind_ne_internal_malformed :
    (atLine 7 (Expr.parseStatement ⟨1, false⟩ [⟨.operator .add, some (.name ⟨"x", .member⟩)⟩]) =
        .error ⟨7, .leadingBinary⟩ ∧
      (Error.diagnostic ⟨7, .leadingBinary⟩).kind ≠ .internal) ∧
    (atLine 7 (Expr.parseStatements ⟨1, true⟩ [⟨.literal, none⟩]) = .error ⟨7, .missingValue⟩ ∧
      (Error.diagnostic ⟨7, .missingValue⟩).kind ≠ .internal) ∧
    (Module.ofLines {} "main" [⟨2, 1, []⟩] = .error ⟨2, .unexpectedIndentation⟩ ∧
      (Error.diagnostic ⟨2, .unexpectedIndentation⟩).kind ≠ .internal) ∧
    (Module.ofSource {} "main" "1 2" = .error ⟨1, .adjacentArguments⟩ ∧
      (Error.diagnostic ⟨1, .adjacentArguments⟩).kind ≠ .internal) ∧
    run .tree {} none "1 2" = .error ⟨1, .adjacentArguments⟩ ∧
      (Error.diagnostic ⟨1, .adjacentArguments⟩).kind ≠ .internal := by
  obtain ⟨statement, statements, lines, source, whole⟩ := kind_ne_internal
  have built : Module.ofSource {} "main" "1 2" = .error ⟨1, .adjacentArguments⟩ := by cbv
  have rendered : run .tree {} none "1 2" = .error ⟨1, .adjacentArguments⟩ := by cbv
  exact ⟨⟨rfl, statement ⟨1, false⟩ 7 [⟨.operator .add, some (.name ⟨"x", .member⟩)⟩] _ rfl⟩,
    ⟨rfl, statements ⟨1, true⟩ 7 [⟨.literal, none⟩] _ rfl⟩,
    ⟨rfl, lines {} "main" [⟨2, 1, []⟩] _ rfl⟩, ⟨built, source _ _ _ _ built⟩,
    rendered, whole _ _ _ _ _ rendered⟩

end Offside
