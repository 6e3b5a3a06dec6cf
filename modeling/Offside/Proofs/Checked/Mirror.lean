import Mathlib
import Offside.Proofs.Checked.Frames
import Offside.Proofs.Checked.Translate
import Offside.Proofs.Module.Fault
import Offside.Proofs.Module.Room

/-!
The calls that wait for a body are the open blocks of a state. The counts of a translator are then
those that can be read off the blocks, and what a call does, up to its end, is what the state makes
of the lines behind.
-/

namespace Offside.Module

open Checked SymbolTree

/-- What is known of the symbols while blocks are open: the entry function is still empty, and each
class or function that is open has been declared as one. -/
structure Firm (u : SymbolTree) (openers : List Opener) : Prop where
  wellFormed : u.WellFormed
  entry : u.function? root = some {}
  declared : ∀ o ∈ openers, ∀ id, o.scope? = some id → id ≠ root ∧
    ∃ d, u.declarations[id]? = some d ∧ (d.kind = .function ↔ o.isClass = false)

namespace Firm

variable {t u : SymbolTree} {openers : List Opener} {o : Opener} {id : Nat}

theorem start (name : String) : Firm (.new name) [] where
  wellFormed := .new name
  entry := rfl
  declared _ mem := absurd mem List.not_mem_nil

theorem tail (h : Firm u (o :: openers)) : Firm u openers where
  wellFormed := h.wellFormed
  entry := h.entry
  declared o mem := h.declared o (List.mem_cons_of_mem _ mem)

theorem plain (h : Firm u openers) (none_ : o.scope? = none) : Firm u (o :: openers) where
  wellFormed := h.wellFormed
  entry := h.entry
  declared := List.forall_mem_cons.2
    ⟨fun id scope => absurd (none_.symm.trans scope) (Option.some_ne_none id).symm, h.declared⟩

theorem declare (h : Firm t openers) {scope : Nat} {name : String} {kind : SymbolKind}
    (ok : t.declare scope name kind = .ok (u, id)) : Firm u openers where
  wellFormed := h.wellFormed.declare ok
  entry := (function?_declare ok h.wellFormed.root_lt).trans h.entry
  declared o mem i scope := by
    obtain ⟨ne, d, found, kind⟩ := h.declared o mem i scope
    exact ⟨ne, d, declared_of_prefix (declarations_prefix_declare ok) found, kind⟩

theorem latest (h : Firm t openers) {scope : Nat} {name : String} {kind : SymbolKind}
    (ok : t.declare scope name kind = .ok (u, id)) (isScope : o.scope? = some id)
    (isKind : kind = .function ↔ o.isClass = false) : Firm u (o :: openers) where
  wellFormed := h.wellFormed.declare ok
  entry := (h.declare ok).entry
  declared := by
    refine List.forall_mem_cons.2 ⟨fun i eq => ?_, (h.declare ok).declared⟩
    cases isScope.symm.trans eq
    have size := (size_declare ok).1
    have root := h.wellFormed.root_lt
    exact ⟨by omega, _, (declarations_declare_eq_some ok).2 (.inr ⟨size, rfl⟩), isKind⟩

theorem setFunction (h : Firm t openers) {f : Function} (ne : id ≠ root)
    (ok : t.setFunction id f = .ok u) : Firm u openers where
  wellFormed := h.wellFormed.setFunction ok
  entry := by rw [function?_setFunction ok, if_neg ne.symm, h.entry]
  declared o mem i scope := declarations_setFunction ok ▸ h.declared o mem i scope

theorem scope_lt (h : Firm u (o :: openers)) (isScope : o.scope? = some id) : id < u.size := by
  obtain ⟨-, d, declared, -⟩ := h.declared o List.mem_cons_self id isScope
  exact lt_size_of_declared declared

theorem scope (h : Firm u openers) :
    ∃ x, u.get? ((openers.findSome? Opener.scope?).getD root) = some x ∧ (x.kind = .function ↔
      ((openers.find? (·.scope?.isSome)).map Opener.isClass).getD false = false) := by
  induction openers with
  | nil =>
    obtain ⟨name, declared⟩ := h.wellFormed.root
    rw [declarations_getElem?] at declared
    obtain ⟨x, known, eq⟩ := Option.map_eq_some_iff.1 declared
    exact ⟨x, known, iff_of_true (congrArg Declaration.kind eq) rfl⟩
  | cons o openers ih =>
    cases isScope : o.scope? with
    | none =>
      rw [List.findSome?_cons_of_isNone (by rw [isScope]; rfl),
        List.find?_cons_of_neg (by rw [isScope]; exact Bool.false_ne_true)]
      exact ih h.tail
    | some id =>
      obtain ⟨-, d, declared, kind⟩ := h.declared o List.mem_cons_self id isScope
      rw [declarations_getElem?] at declared
      obtain ⟨x, known, eq⟩ := Option.map_eq_some_iff.1 declared
      rw [List.findSome?_cons_of_isSome (by rw [isScope]; rfl),
        List.find?_cons_of_pos (by rw [isScope]; rfl), isScope]
      exact ⟨x, known, by rw [← eq] at kind; exact kind⟩

end Firm

namespace Translator

def remaining (t : Translator) : List Line :=
  t.lines.drop t.offset

/-- A translator and a state that have read the same lines. The translator may be some else-if links
further on. -/
structure Mirrors (config : Config) (n : Nat) (t : Translator) (s : State) : Prop where
  firm : Firm s.symbols s.openers
  symbols : s.symbols = t.symbols
  level : s.openers.length = t.indentation
  links : (s.openers.map Opener.links).sum + n = t.links
  current : s.scope = t.current
  inClass : s.inClass = decide (0 < t.classes)
  maxDepth : config.maxDepth = t.maxDepth

structure Restored (t t' : Translator) : Prop where
  indentation : t'.indentation = t.indentation
  classes : t'.classes = t.classes
  current : t'.current = t.current
  links : t'.links = t.links
  maxDepth : t'.maxDepth = t.maxDepth
  fewer : t'.remaining.length ≤ t.remaining.length

variable {config : Config} {n : Nat} {t t' t'' : Translator} {s : State}

namespace Restored

theorem refl (t : Translator) : Restored t t :=
  ⟨rfl, rfl, rfl, rfl, rfl, Nat.le_refl _⟩

theorem trans (h : Restored t t') (h' : Restored t' t'') : Restored t t'' where
  indentation := h'.indentation.trans h.indentation
  classes := h'.classes.trans h.classes
  current := h'.current.trans h.current
  links := h'.links.trans h.links
  maxDepth := h'.maxDepth.trans h.maxDepth
  fewer := Nat.le_trans h'.fewer h.fewer

end Restored

end Translator

namespace State

variable {config : Config} {number : Nat} {s t : State} {l : Line} {ls : List Line}

def addAll (stmts : List Stmt) (s : State) : State :=
  stmts.foldl (fun s stmt => s.add stmt) s

theorem openers_addAll (stmts : List Stmt) (s : State) : (s.addAll stmts).openers = s.openers := by
  induction stmts generalizing s with
  | nil => rfl
  | cons stmt stmts ih => exact (ih _).trans (openers_add stmt s)

theorem symbols_addAll (stmts : List Stmt) (s : State) : (s.addAll stmts).symbols = s.symbols := by
  induction stmts generalizing s with
  | nil => rfl
  | cons stmt stmts ih => exact (ih _).trans (symbols_add stmt s)

theorem addAll_append (a b : List Stmt) (s : State) :
    s.addAll (a ++ b) = (s.addAll a).addAll b := by
  rw [addAll, List.foldl_append]
  rfl

theorem addAll_with (stmts : List Stmt) (s : State) (u : SymbolTree) :
    { s.addAll stmts with symbols := u } = { s with symbols := u }.addAll stmts := by
  induction stmts generalizing s with
  | nil => rfl
  | cons stmt stmts ih =>
    refine (ih (s.add stmt)).trans (congrArg (State.addAll stmts) ?_)
    obtain ⟨symbols, entry, blocks⟩ := s
    cases blocks <;> rfl

def under (opener : Opener) (line : Nat) (s : State) : State :=
  { s with blocks := ⟨opener, line, []⟩ :: s.blocks }

theorem addAll_under (stmts : List Stmt) (opener : Opener) (line : Nat) (s : State) :
    (s.under opener line).addAll stmts =
      { s with blocks := ⟨opener, line, stmts.reverse⟩ :: s.blocks } := by
  have added (before : List Stmt) :
      { s with blocks := ⟨opener, line, before⟩ :: s.blocks }.addAll stmts =
        { s with blocks := ⟨opener, line, stmts.reverse ++ before⟩ :: s.blocks } := by
    induction stmts generalizing before with
    | nil => rfl
    | cons stmt stmts ih =>
      refine (ih (stmt :: before)).trans ?_
      rw [List.reverse_cons, List.append_assoc]
      rfl
  exact (added []).trans (by rw [List.append_nil])

theorem leave_cons (u : SymbolTree) (entry : List Stmt) (b : Block) (outer : List Block) :
    State.leave ⟨u, entry, b :: outer⟩ = State.finish b ⟨u, entry, outer⟩ := rfl

theorem step_goes_on {u : SymbolTree} {entry : List Stmt} {c : Expr} {chain : List Arm} {line : Nat}
    {stmts : List Stmt} {outer : List Block} {first : Lexeme} {rest : List Lexeme}
    (level : l.indentation = outer.length) (lexemes : l.lexemes = first :: rest)
    (isElse : first.kind = .keyword .else_) :
    State.step config ⟨u, entry, ⟨.if_ c chain, line, stmts.reverse⟩ :: outer⟩ l =
      State.otherwise config l.number rest ⟨c, stmts, line⟩ chain ⟨u, entry, outer⟩ := by
  have deep : (⟨.if_ c chain, line, stmts.reverse⟩ :: outer : List Block).length =
      l.indentation + 1 := by rw [List.length_cons, level]
  refine step_else (Nat.le_of_succ_le (Nat.le_of_eq deep.symm)) lexemes isElse
    (leaveTo_of_le (Nat.le_of_eq deep)) ?_
  simp [openArm?, level]

def outcome (config : Config) (s : State) (ls : List Line) : Except Error SymbolTree := do
  let s ← s.readAll config ls
  atLine 0 s.done

def onward (config : Config) (number : Nat) (ls : List Line) (x : Except Fault State) :
    Except Error SymbolTree :=
  atLine number x >>= (·.outcome config ls)

theorem outcome_cons (s : State) (l : Line) (ls : List Line) :
    s.outcome config (l :: ls) = onward config l.number ls (s.step config l) := by
  rw [outcome, readAll, List.foldlM_cons, bind_assoc]
  rfl

theorem step_here (level : l.indentation = s.blocks.length) :
    s.step config l = s.read config l.number l.lexemes := by
  have none_ : s.openArm? l.indentation = none := by
    unfold openArm?
    split
    · next blocks =>
      rw [if_neg]
      rw [level, blocks]
      exact Nat.ne_of_lt (Nat.lt_succ_self _)
    · rfl
  rw [step, if_neg (by omega), leaveTo_of_le (by omega)]
  simp only [bind, Except.bind, none_, leaveTo_of_le (Nat.le_of_eq level.symm)]

theorem outcome_leave (left : s.leave = .ok t) (one : s.blocks.length = t.blocks.length + 1)
    (next : ∀ l ∈ ls.head?, l.indentation ≤ t.blocks.length ∧ (l.indentation = t.blocks.length →
      s.openArm? l.indentation = none ∨ afterElse? l.lexemes = none)) :
    s.outcome config ls = t.outcome config ls := by
  have leaves {d : Nat} (le : d ≤ t.blocks.length) : s.leaveTo d = t.leaveTo d := by
    rw [leaveTo_of_lt (by omega), left]
    rfl
  cases ls with
  | nil =>
    change atLine 0 s.done = atLine 0 t.done
    rw [done, done, leaves (Nat.zero_le _)]
  | cons l ls =>
    obtain ⟨le, ends⟩ := next l rfl
    rw [outcome_cons, outcome_cons]
    refine congrArg (onward config l.number ls) ?_
    by_cases level : l.indentation = t.blocks.length
    · rw [step_here level, step, if_neg (by omega), leaveTo_of_le (by omega)]
      have open_ : s.leaveTo l.indentation = .ok t :=
        (leaves le).trans (leaveTo_of_le (by omega))
      simp only [bind, Except.bind, open_]
      rcases ends level with none_ | none_
      · rw [none_]
      · rw [none_]
        cases s.openArm? l.indentation <;> rfl
    · rw [step, step, if_neg (by omega), if_neg (by omega), leaves (by omega)]

end State

namespace Translator

variable {α β : Type} {config : Config} {n number : Nat} {t t' : Translator} {s : State}
  {target : Except Error SymbolTree} {x : Translation α} {f : α → Translation β}
  {mid : α → Translator → Prop} {post : β → Translator → Prop} {ls : List Line}

/-- The call comes to an end, where its failure is that of the whole. -/
def Ends (target : Except Error SymbolTree) (x : Translation α) (t : Translator)
    (post : α → Translator → Prop) : Prop :=
  ∃ r t', x t = some (r, t') ∧ Restored t t' ∧ (∀ e, r = .error e → target = .error e) ∧
    ∀ a, r = .ok a → post a t'

namespace Ends

theorem of_ok {a : α} (run : x t = some (.ok a, t')) (restored : Restored t t') (h : mid a t') :
    Ends target x t mid :=
  ⟨_, _, run, restored, fun _ eq => (by cases eq), fun _ eq => by cases eq; exact h⟩

theorem pure {a : α} (h : mid a t) : Ends target (pure a) t mid :=
  of_ok (pure_apply a t) (.refl t) h

theorem fail {fault : Fault} (h : target = .error ⟨number, fault⟩) :
    Ends target (fail number fault) t mid :=
  ⟨_, _, rfl, .refl t, fun e eq => by cases eq; exact h, fun _ eq => by cases eq⟩

theorem bind (hx : Ends target x t mid)
    (hf : ∀ a t', Restored t t' → mid a t' → Ends target (f a) t' post) :
    Ends target (x >>= f) t post := by
  obtain ⟨r, t', run, restored, failed, ok⟩ := hx
  cases r with
  | error e =>
    exact ⟨_, _, bind_of_error run, restored, fun _ eq => by cases eq; exact failed e rfl,
      fun _ eq => by cases eq⟩
  | ok a =>
    obtain ⟨r, t'', run', restored', failed, ok'⟩ := hf a t' restored (ok a rfl)
    exact ⟨r, t'', (bind_of_ok run).trans run', restored.trans restored', failed, ok'⟩

theorem imp {mid' : α → Translator → Prop} (hx : Ends target x t mid)
    (h : ∀ a t', mid a t' → mid' a t') : Ends target x t mid' := by
  obtain ⟨r, t', run, restored, failed, ok⟩ := hx
  exact ⟨r, t', run, restored, failed, fun a eq => h a t' (ok a eq)⟩

theorem get {g : Translator → Translation β} (h : Ends target (g t) t post) :
    Ends target (get >>= g) t post :=
  have known : Ends target MonadState.get t fun a t' => a = t ∧ t' = t :=
    of_ok (get_apply t) (.refl t) ⟨rfl, rfl⟩
  bind known fun _ _ _ ⟨eq, eq'⟩ => by rw [eq, eq']; exact h

theorem defined {o : Option α} {a : α} (some_ : o = some a) (h : Ends target (f a) t post) :
    Ends target (liftM o >>= f) t post := by
  subst some_
  have known : Ends target (liftM (some a)) t fun b t' => b = a ∧ t' = t :=
    of_ok (lift_apply a t) (.refl t) ⟨rfl, rfl⟩
  exact bind known fun _ _ _ ⟨eq, eq'⟩ => by rw [eq, eq']; exact h

theorem placed {y : Except Fault α} {k : α → Except Fault State}
    (h : target = State.onward config number ls (y >>= k)) :
    Ends target (liftM (atLine number y)) t fun a t' =>
      t' = t ∧ y = .ok a ∧ target = State.onward config number ls (k a) := by
  cases y with
  | error e =>
    exact ⟨_, _, liftExcept_apply _ t, .refl t, fun _ eq => by cases eq; exact h,
      fun _ eq => by cases eq⟩
  | ok a => exact of_ok (liftExcept_apply (.ok a) t) (.refl t) ⟨rfl, rfl, h⟩

end Ends

namespace Mirrors

theorem advance (h : Mirrors config n t s) (restored : Restored t t') (stmts : List Stmt)
    (firm : Firm t'.symbols s.openers) :
    Mirrors config n t' ({ s with symbols := t'.symbols }.addAll stmts) := by
  have openers : ({ s with symbols := t'.symbols }.addAll stmts).openers = s.openers :=
    State.openers_addAll stmts _
  have symbols : ({ s with symbols := t'.symbols }.addAll stmts).symbols = t'.symbols :=
    State.symbols_addAll stmts _
  have inClass (s : State) : s.inClass = s.openers.any Opener.isClass := by
    rw [State.inClass, State.openers, List.any_map]
    rfl
  constructor
  · rw [openers, symbols]
    exact firm
  · exact symbols
  · rw [openers, h.level, restored.indentation]
  · rw [openers, h.links, restored.links]
  · rw [State.scope_eq_openers, openers, ← State.scope_eq_openers, h.current, restored.current]
  · rw [inClass, openers, ← inClass, h.inClass, restored.classes]
  · rw [h.maxDepth, restored.maxDepth]

theorem same (h : Mirrors config n t s) (restored : Restored t t')
    (symbols : t'.symbols = t.symbols) : Mirrors config n t' s := by
  have eq : { s with symbols := t'.symbols } = s := by rw [symbols, ← h.symbols]
  have moved := h.advance restored [] (by rw [symbols, ← h.symbols]; exact h.firm)
  rwa [eq] at moved

theorem inside (h : Mirrors config n t s) :
    Firm t.symbols s.openers ∧ t.current < t.symbols.size := by
  have firm : Firm t.symbols s.openers := h.symbols ▸ h.firm
  obtain ⟨x, known, -⟩ := firm.scope
  rw [← State.scope_eq_openers, h.current] at known
  exact ⟨firm, get?_lt known⟩

theorem under (h : Mirrors config n t s) (line : Nat) (opener : Opener)
    (none_ : opener.scope? = none) (links : opener.links = n) :
    Mirrors config 0 { t with indentation := t.indentation + 1 } (s.under opener line) where
  firm := h.firm.plain none_
  symbols := h.symbols
  level := congrArg (· + 1) h.level
  links := by
    change opener.links + (s.openers.map Opener.links).sum + 0 = t.links
    rw [← h.links, links]
    omega
  current := by
    refine Eq.trans ?_ h.current
    rw [State.scope_eq_openers, State.scope_eq_openers]
    change ((opener :: s.openers).findSome? Opener.scope?).getD root = _
    rw [List.findSome?_cons_of_isNone (by rw [none_]; rfl)]
  inClass := by
    have noClass : opener.isClass = false := by
      cases opener with
      | class_ => cases none_
      | _ => rfl
    refine Eq.trans ?_ h.inClass
    change (opener.isClass || s.blocks.any _) = _
    rw [noClass, Bool.false_or]
    rfl
  maxDepth := h.maxDepth

theorem setting (h : Mirrors config n t s) : s.setting config = t.setting := by
  rw [State.setting, Translator.setting, h.maxDepth, h.inClass]

end Mirrors

end Translator

end Offside.Module
