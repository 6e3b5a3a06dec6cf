import Offside.Proofs.Module.Fault
import Offside.Proofs.Module.Prefix

/-!
What is declared outside of every class and function, by position. While lines are read, each
open block is that of a line, with the lines around that one open around it; so the scope of a
declaration is the root if and only if no class or function line stands around its own. All of
it holds of any lines, those without lexemes included.
-/

namespace Offside

open SymbolTree

namespace Role

variable {first : Lexeme} {rest : List Lexeme}

theorem ofElse_isElse (ws : List Lexeme) : (ofElse ws).isElse := by
  unfold ofElse
  split
  · split <;> rfl
  · rfl

theorem kind_of_class (h : of (first :: rest) = .class_) : first.kind = .keyword .class_ := by
  have other := ofElse_isElse rest
  simp only [of] at h
  split at h <;> simp_all [isElse]

theorem kind_of_function (h : of (first :: rest) = .function) :
    first.kind = .keyword .function := by
  have other := ofElse_isElse rest
  simp only [of] at h
  split at h <;> simp_all [isElse]

end Role

def declaredName? (ws : List Lexeme) : Option String :=
  match Role.of ws, ws.tail.mapM Lexeme.plainName? with
  | .class_, some [name] => some name
  | .function, some (name :: _) => some name
  | _, _ => none

theorem declaredName?_eq_some {ws : List Lexeme} {x : String} (h : declaredName? ws = some x) :
    ∃ first header, ws = first :: header ∧
      (first.kind = .keyword .class_ ∧ header.mapM Lexeme.plainName? = some [x] ∨
        first.kind = .keyword .function ∧
          ∃ arguments, header.mapM Lexeme.plainName? = some (x :: arguments)) := by
  match ws with
  | [] => cases h
  | first :: header =>
    refine ⟨first, header, rfl, ?_⟩
    unfold declaredName? at h
    split at h
    · next role names =>
      cases h
      exact .inl ⟨Role.kind_of_class role, names⟩
    · next role names =>
      cases h
      exact .inr ⟨Role.kind_of_function role, _, names⟩
    · cases h

def Header.name? : Header → Option String
  | class_ name | function name _ => some name
  | _ => none

theorem Header.Reads.name? {s : Expr.Setting} {ws : List Lexeme} {h : Header}
    (reads : h.Reads s ws) : declaredName? ws = h.name? := by
  have role := reads.role
  unfold declaredName?
  rw [role]
  cases reads with
  | class_ _ name => simp [Header.role, Header.name?, name]
  | function _ names => simp [Header.role, Header.name?, names]
  | expression _ role => simp [Header.role, Header.name?]
  | _ => rfl

namespace Module

/-- The name that a line declares in the root: it is the line of a class or a function, with no
such line around it. -/
def rootName? (ls : List Line) (i : Nat) : Option String :=
  match declarer? ls i with
  | none => declaredName? (lineAt ls i).lexemes
  | some _ => none

structure Opener.OpenedBy (ws : List Lexeme) (o : Opener) : Prop where
  isSome : o.scope?.isSome = (Role.of ws).declares
  ne_root : ∀ id, o.scope? = some id → id ≠ root

namespace State

def openers (s : State) : List Opener :=
  s.blocks.map (·.opener)

variable {config : Config} {line : Nat} {s s' t : State} {ws : List Lexeme} {stmt : Stmt}

theorem length_openers (s : State) : s.openers.length = s.blocks.length :=
  List.length_map _

theorem scope_eq_openers (s : State) :
    s.scope = (s.openers.findSome? Opener.scope?).getD root := by
  rw [scope, openers, List.findSome?_map]
  rfl

theorem openers_add (stmt : Stmt) (s : State) : (s.add stmt).openers = s.openers := by
  obtain ⟨symbols, entry, blocks⟩ := s
  cases blocks <;> rfl

section Ends

theorem finish_effect {b : Block} (h : s.finish b = .ok t) :
    t.openers = s.openers ∧ t.symbols.declarations = s.symbols.declarations := by
  obtain ⟨opener, line, body⟩ := b
  cases opener with
  | class_ id =>
    cases h
    exact ⟨rfl, rfl⟩
  | function id arguments =>
    obtain ⟨symbols, hs, eq⟩ := bind_eq_ok.1 h
    cases eq
    exact ⟨rfl, declarations_setFunction hs⟩
  | _ =>
    cases h
    rw [symbols_add]
    exact ⟨openers_add _ s, rfl⟩

theorem leave_effect (h : s.leave = .ok t) :
    t.openers = s.openers.tail ∧ t.symbols.declarations = s.symbols.declarations := by
  unfold leave at h
  split at h
  · next none =>
    cases h
    simp [openers, none]
  · next b outer some =>
    have effect := finish_effect h
    simpa [openers, some] using effect

theorem leaveMany_effect {n : Nat} (h : s.leaveMany n = .ok t) :
    t.openers = s.openers.drop n ∧ t.symbols.declarations = s.symbols.declarations := by
  induction n generalizing s with
  | zero =>
    cases h
    exact ⟨rfl, rfl⟩
  | succ n ih =>
    obtain ⟨u, hu, h⟩ := bind_eq_ok.1 h
    obtain ⟨openers, declared⟩ := leave_effect hu
    obtain ⟨openers', declared'⟩ := ih h
    rw [openers', openers, List.drop_tail, declared', declared]
    exact ⟨rfl, rfl⟩

end Ends

/-- What reading a line does to the open blocks and to the names in the root. -/
structure Effect (ws : List Lexeme) (s s' : State) : Prop where
  openers : s'.openers = s.openers ∨ ∃ o, s'.openers = o :: s.openers ∧ o.OpenedBy ws
  fresh : ∀ x, s'.symbols.Fresh root x ↔ s.symbols.Fresh root x ∧
    ¬ (s.scope = root ∧ declaredName? ws = some x)

namespace Effect

theorem of_same (openers : s'.openers = s.openers ∨ ∃ o, s'.openers = o :: s.openers ∧ o.OpenedBy ws)
    (symbols : s'.symbols = s.symbols) (none : declaredName? ws = none) : Effect ws s s' :=
  ⟨openers, fun x => by simp [symbols, none]⟩

theorem of_enter {maxDepth : Nat} {o : Opener} (scope : o.scope? = none)
    (declares : (Role.of ws).declares = false) (name : declaredName? ws = none)
    (h : s.enter maxDepth o line = .ok s') : Effect ws s s' := by
  obtain ⟨-, rfl⟩ := enter_eq_ok.1 h
  refine of_same (.inr ⟨o, rfl, ?_, ?_⟩) rfl name
  · rw [scope, declares]
    rfl
  · simp [scope]

theorem of_declare {name : String} {arguments : List String} {kind : SymbolKind} {id maxDepth : Nat}
    {u v : SymbolTree} {o : Opener} (wf : s.symbols.WellFormed)
    (hu : s.symbols.declare s.scope name kind = .ok (u, id))
    (hv : declareArguments id arguments u = .ok v)
    (h : { s with symbols := v }.enter maxDepth o line = .ok s') (scope : o.scope? = some id)
    (declares : (Role.of ws).declares) (named : declaredName? ws = some name) :
    Effect ws s s' := by
  obtain ⟨-, rfl⟩ := enter_eq_ok.1 h
  have inner : id ≠ root := by
    rw [(size_declare hu).1]
    exact Nat.ne_of_gt wf.root_lt
  obtain ⟨-, -, -, declarations⟩ := declareArguments_spec (wf.declare hu) hv
  have arguments' (x : String) :
      v.Fresh root x ↔ u.Fresh root x := by
    unfold Fresh
    rw [declarations, List.forall_mem_append]
    refine and_iff_left fun d mem parent => ?_
    obtain ⟨y, -, rfl⟩ := List.mem_map.1 mem
    exact absurd (Option.some.inj parent) inner
  refine ⟨.inr ⟨o, rfl, ?_, ?_⟩, fun x => ?_⟩
  · rw [scope, declares]
    rfl
  · simpa [scope] using inner
  · refine (arguments' x).trans ((fresh_declare hu).trans (and_congr_right fun _ => ?_))
    rw [named, Option.some.injEq, not_and]
    exact ⟨fun h eq same => h eq.symm same.symm, fun h eq same => h eq.symm same.symm⟩

end Effect

theorem read_effect (sound : s.Sound) (ok : s.read config line ws = .ok s') : Effect ws s s' := by
  by_cases ne : ws = []
  · subst ne
    cases ok
    exact .of_same (.inl rfl) rfl rfl
  obtain ⟨hd, reads⟩ := reads_of_read ne ok
  have role := reads.role
  have name := reads.name?
  rw [read_eq_perform reads] at ok
  cases hd using Header.byEffect with
  | opens hd o opens =>
    obtain ⟨-, h⟩ := (perform_opener opens).1 ok
    cases hd <;> cases opens <;> exact .of_enter rfl (by rw [role]; rfl) name h
  | leaf hd leaf =>
    obtain ⟨stmt, leaf⟩ := leaf line
    obtain ⟨-, rfl⟩ := (perform_leaf leaf).1 ok
    have none : hd.name? = none := by
      cases hd <;> first | rfl | cases leaf
    exact .of_same (.inl (openers_add stmt s)) (symbols_add stmt s) (name.trans none)
  | class_ x =>
    obtain ⟨u, id, v, hu, hv, h⟩ := perform_class.1 ok
    exact .of_declare sound.wellFormed hu hv h rfl (by rw [role]; rfl) name
  | function x arguments =>
    obtain ⟨u, id, v, hu, hv, h⟩ := perform_function.1 ok
    exact .of_declare sound.wellFormed hu hv h rfl (by rw [role]; rfl) name
  | elseIf | else_ => cases ok

theorem otherwise_effect {first : Lexeme} {rest : List Lexeme} {arm : Arm} {chain : List Arm}
    (kind : first.kind = .keyword .else_)
    (ok : s.otherwise config line rest arm chain = .ok s') : Effect (first :: rest) s s' := by
  obtain ⟨hd, reads⟩ := reads_of_otherwise kind ok
  have role := reads.role
  rw [otherwise_eq_resume kind reads] at ok
  cases hd with
  | elseIf c => exact .of_enter rfl (by rw [role]; rfl) reads.name? ok
  | else_ => exact .of_enter rfl (by rw [role]; rfl) reads.name? ok
  | _ => cases ok

theorem openArm?_eq_some {height : Nat} {arm : Arm} {chain : List Arm} {outer : State}
    (h : s.openArm? height = some (arm, chain, outer)) :
    outer.openers = s.openers.tail ∧ outer.symbols = s.symbols ∧
      outer.blocks.length = height ∧ s.blocks.length = height + 1 := by
  unfold openArm? at h
  split at h
  · next blocks =>
    split at h
    · next level =>
      cases h
      simp [openers, blocks, level]
    · cases h
  · cases h

theorem afterElse?_eq_some {rest : List Lexeme} (h : afterElse? ws = some rest) :
    ∃ first, ws = first :: rest ∧ first.kind = .keyword .else_ := by
  unfold afterElse? at h
  split at h
  · split at h
    · next first rest' kind =>
      cases h
      exact ⟨first, rfl, kind⟩
    · cases h
  · cases h

theorem sound_leaveTo {height : Nat} (sound : s.Sound) (h : s.leaveTo height = .ok t) :
    t.Sound := by
  have kept := sound.leaveTo height
  rwa [h] at kept

theorem step_effect {l : Line} (sound : s.Sound) (ok : s.step config l = .ok s') :
    l.indentation ≤ s.blocks.length ∧ ∃ u, u.symbols.declarations = s.symbols.declarations ∧
      u.openers = s.openers.drop (s.blocks.length - l.indentation) ∧ Effect l.lexemes u s' := by
  have le := le_of_step ok
  refine ⟨le, ?_⟩
  rw [step, if_neg (Nat.not_lt.2 le)] at ok
  obtain ⟨t, ht, ok⟩ := bind_eq_ok.1 ok
  have sound' := sound_leaveTo sound ht
  split at ok
  · next arm chain outer rest found isElse =>
    obtain ⟨openers, symbols, -, length⟩ := openArm?_eq_some found
    obtain ⟨first, lexemes, kind⟩ := afterElse?_eq_some isElse
    obtain ⟨kept, declared⟩ := leaveMany_effect ht
    have total := length_leaveTo ht
    refine ⟨outer, by rw [symbols, declared], ?_, lexemes ▸ otherwise_effect kind ok⟩
    rw [openers, kept, List.tail_drop]
    congr 1
    omega
  · obtain ⟨u, hu, ok⟩ := bind_eq_ok.1 ok
    have here : s.leaveTo l.indentation = .ok u := by
      rw [← leaveTo_succ, ht]
      exact hu
    obtain ⟨kept, declared⟩ := leaveMany_effect here
    exact ⟨u, declared, kept, read_effect (sound_leaveTo sound here) ok⟩

end State

/-- After `k` lines, the open blocks are those of the line `o` and of the lines around it. -/
inductive Traced (ls : List Line) (k : Nat) : Option Nat → List Opener → Prop
  | nil : Traced ls k none []
  | cons {p o outer} : p < k → indent ls p = outer.length → o.OpenedBy (lineAt ls p).lexemes →
      (∀ i, p < i → i < k → indent ls p < indent ls i) → Traced ls k (opener? ls p) outer →
      Traced ls k (some p) (o :: outer)

namespace Traced

variable {ls : List Line} {k : Nat} {o : Option Nat} {stack : List Opener} {opener : Opener}

theorem drop (h : Traced ls k o stack) (le : indent ls k ≤ stack.length) :
    Traced ls k (opener? ls k) (stack.drop (stack.length - indent ls k)) := by
  induction h with
  | nil =>
    have none : opener? ls k = none := before_eq_none.2 fun q _ => by simp_all
    rw [none, List.drop_nil]
    exact .nil
  | @cons p opener outer lt level opened since rest ih =>
    rw [List.length_cons] at le ⊢
    rcases Nat.lt_or_eq_of_le le with less | eq
    · rw [show outer.length + 1 - indent ls k = outer.length - indent ls k + 1 by omega,
        List.drop_succ_cons]
      exact ih (Nat.lt_succ_iff.1 less)
    · have innermost : opener? ls k = some p := by
        refine before_eq_some.2 ⟨lt, by omega, fun q after before => ?_⟩
        have := since q after before
        omega
      rw [innermost, eq, Nat.sub_self, List.drop_zero]
      exact .cons lt level opened since rest

theorem advance (h : Traced ls k o stack) (le : stack.length ≤ indent ls k) :
    Traced ls (k + 1) o stack := by
  induction h with
  | nil => exact .nil
  | cons lt level opened since rest ih =>
    rw [List.length_cons] at le
    refine .cons (Nat.lt_succ_of_lt lt) level opened (fun i after before => ?_) (ih (by omega))
    rcases Nat.lt_succ_iff_lt_or_eq.1 before with before | rfl
    · exact since i after before
    · omega

theorem push (h : Traced ls k (opener? ls k) stack) (level : indent ls k = stack.length)
    (opened : opener.OpenedBy (lineAt ls k).lexemes) :
    Traced ls (k + 1) (some k) (opener :: stack) :=
  .cons (Nat.lt_succ_self k) level opened (fun i _ _ => by omega)
    (h.advance (Nat.le_of_eq level.symm))

theorem findSome?_eq_none (h : Traced ls k o stack) : stack.findSome? Opener.scope? = none ↔
    (Module.openers ls o).find? (fun p => (roleAt ls p).declares) = none := by
  induction h with
  | nil => simp
  | @cons p opener outer _ _ opened _ _ ih =>
    rw [openers_some, List.findSome?_cons, List.find?_cons, roleAt, ← opened.isSome]
    cases opener.scope? with
    | none => exact ih
    | some id => simp

theorem ne_root (h : Traced ls k o stack) {id : Nat}
    (found : stack.findSome? Opener.scope? = some id) : id ≠ root := by
  induction h with
  | nil => cases found
  | @cons p opener outer _ _ opened _ _ ih =>
    rw [List.findSome?_cons] at found
    split at found
    · next scope =>
      cases found
      exact opened.ne_root _ scope
    · exact ih found

theorem scope_eq_root {s : State} (h : Traced ls k (opener? ls k) s.openers) :
    s.scope = root ↔ declarer? ls k = none := by
  rw [declarer?, enclosing_eq, ← h.findSome?_eq_none, s.scope_eq_openers]
  cases found : s.openers.findSome? Opener.scope? with
  | none => simp
  | some id => simpa using h.ne_root found

end Traced

variable {config : Config} {name : String} {ls : List Line} {k : Nat} {s : State}

structure Reached (ls : List Line) (k : Nat) (s : State) : Prop where
  sound : s.Sound
  traced : ∃ o, Traced ls k o s.openers
  fresh : ∀ x, s.symbols.Fresh root x ↔ ∀ i, i < k → rootName? ls i ≠ some x

theorem rootName?_eq_some {x : String} : rootName? ls k = some x ↔
    declarer? ls k = none ∧ declaredName? (lineAt ls k).lexemes = some x := by
  unfold rootName?
  split <;> simp_all

namespace Reached

theorem start (ls : List Line) (name : String) : Reached ls 0 (.start name) where
  sound := .start name
  traced := ⟨none, .nil⟩
  fresh x := by
    refine iff_of_true (fun d mem parent => ?_) fun i lt => absurd lt (Nat.not_lt_zero i)
    cases List.mem_singleton.1 mem
    cases parent

theorem step {s' : State} (h : Reached ls k s) (ok : s.step config (lineAt ls k) = .ok s') :
    Reached ls (k + 1) s' := by
  obtain ⟨o, traced⟩ := h.traced
  obtain ⟨le, u, declared, kept, effect⟩ := State.step_effect h.sound ok
  rw [← State.length_openers] at le kept
  have around : Traced ls k (opener? ls k) u.openers := kept ▸ traced.drop le
  have level : indent ls k = u.openers.length := by
    rw [kept, List.length_drop, Nat.sub_sub_self le]
    rfl
  refine ⟨?_, ?_, fun x => ?_⟩
  · have sound := h.sound.step config (lineAt ls k)
    rwa [ok] at sound
  · rcases effect.openers with same | ⟨opener, more, opened⟩
    · exact ⟨_, same ▸ around.advance (Nat.le_of_eq level.symm)⟩
    · exact ⟨_, more ▸ around.push level opened⟩
  · have before : u.symbols.Fresh root x ↔ s.symbols.Fresh root x := by rw [Fresh, declared, Fresh]
    rw [effect.fresh, before, h.fresh, around.scope_eq_root, ← rootName?_eq_some]
    constructor
    · rintro ⟨earlier, here⟩ i lt
      rcases Nat.lt_succ_iff_lt_or_eq.1 lt with lt | rfl
      · exact earlier i lt
      · exact here
    · exact fun all => ⟨fun i lt => all i (Nat.lt_succ_of_lt lt), all k (Nat.lt_succ_self k)⟩

theorem scope_eq_root {u : State} (h : Reached ls k s) (le : indent ls k ≤ s.blocks.length)
    (left : s.leaveTo (indent ls k) = .ok u) : u.scope = root ↔ declarer? ls k = none := by
  obtain ⟨o, traced⟩ := h.traced
  rw [← State.length_openers] at le
  have around := traced.drop le
  rw [State.length_openers, ← (State.leaveMany_effect left).1] at around
  exact around.scope_eq_root

theorem of_readAll (le : k ≤ ls.length)
    (read : (State.start name).readAll config (ls.take k) = .ok s) : Reached ls k s := by
  induction k generalizing s with
  | zero =>
    cases read
    exact .start ls name
  | succ k ih =>
    rw [take_succ_lines le, State.readAll_append] at read
    obtain ⟨t, before, last⟩ := bind_eq_ok.1 read
    rw [readAll_singleton, atLine_eq_ok] at last
    exact (ih (Nat.le_of_lt le) before).step last

end Reached

end Module

end Offside
