import Offside.Proofs.Module.Trace
import Offside.Proofs.Symbol.Graft

/-!
Lines behind other lines. Behind symbols and statements that are there already, a line does what
it does by itself, with the numbers of its symbols raised; the only difference is made by a name
that is taken in the root.
-/

namespace Offside

open SymbolTree

namespace Module

def Opener.raise (n : Nat) : Opener → Opener
  | class_ id => class_ (SymbolTree.raise n id)
  | function id arguments => function (SymbolTree.raise n id) arguments
  | o => o

def Block.raise (n : Nat) (b : Block) : Block :=
  { b with opener := b.opener.raise n }

section Raise

variable (n : Nat) (o : Opener)

@[simp] theorem Opener.scope?_raise : (o.raise n).scope? = o.scope?.map (SymbolTree.raise n) := by
  cases o <;> rfl

@[simp] theorem Opener.isClass_raise : (o.raise n).isClass = o.isClass := by
  cases o <;> rfl

@[simp] theorem Opener.links_raise : (o.raise n).links = o.links := by
  cases o <;> rfl

end Raise

namespace State

variable (t : SymbolTree) (entry : List Stmt)

/-- The same lines read behind symbols and entry statements that are there already. -/
def behind (s : State) : State :=
  ⟨t.graft s.symbols, s.entry ++ entry, s.blocks.map (Block.raise (t.size - 1))⟩

variable (s : State) (config : Config) (line : Nat) (header : List Lexeme)

theorem length_behind : (s.behind t entry).blocks.length = s.blocks.length :=
  List.length_map _

theorem scope_behind : (s.behind t entry).scope = SymbolTree.raise (t.size - 1) s.scope := by
  have scopes : (s.blocks.map (Block.raise (t.size - 1))).findSome? (·.opener.scope?) =
      (s.blocks.findSome? (·.opener.scope?)).map (SymbolTree.raise (t.size - 1)) := by
    rw [List.findSome?_map, List.map_findSome?]
    congr 1
    funext b
    exact Opener.scope?_raise _ b.opener
  rw [scope, behind, scopes, scope]
  cases s.blocks.findSome? (·.opener.scope?) <;> rfl

theorem directlyInClass_behind : (s.behind t entry).directlyInClass = s.directlyInClass := by
  simp [directlyInClass, behind, List.find?_map, Function.comp_def, Block.raise]

theorem setting_behind : (s.behind t entry).setting config = s.setting config := by
  simp [setting, inClass, behind, List.any_map, Function.comp_def, Block.raise]

theorem links_behind : (s.behind t entry).links = s.links := by
  simp [links, behind, List.foldr_map, Block.raise]

theorem behind_add (stmt : Stmt) : (s.add stmt).behind t entry = (s.behind t entry).add stmt := by
  obtain ⟨symbols, entry', blocks⟩ := s
  cases blocks <;> rfl

theorem enter_behind (maxDepth : Nat) (o : Opener) :
    (s.behind t entry).enter maxDepth (o.raise (t.size - 1)) line =
      (s.enter maxDepth o line).map (behind t entry) := by
  unfold enter
  rw [length_behind, links_behind, Opener.links_raise]
  split <;> rfl

theorem resume_behind (arm : Arm) (chain : List Arm) (hd : Header) :
    (s.behind t entry).resume config line arm chain hd =
      (s.resume config line arm chain hd).map (behind t entry) := by
  have entered := enter_behind t entry s line config.maxDepth
  cases hd with
  | elseIf c => exact entered (.if_ c (arm :: chain))
  | else_ => exact entered (.else_ arm chain)
  | _ => rfl

theorem otherwise_behind (arm : Arm) (chain : List Arm) :
    (s.behind t entry).otherwise config line header arm chain =
      (s.otherwise config line header arm chain).map (behind t entry) := by
  rw [otherwise_eq_parse, otherwise_eq_parse, setting_behind]
  cases Header.parseElse (s.setting config) header with
  | error f => rfl
  | ok hd => exact resume_behind t entry s config line arm chain hd

theorem openArm?_behind (height : Nat) : (s.behind t entry).openArm? height =
    (s.openArm? height).map fun found => (found.1, found.2.1, found.2.2.behind t entry) := by
  obtain ⟨symbols, entry', blocks⟩ := s
  match blocks with
  | [] => rfl
  | ⟨opener, line, body⟩ :: outer =>
    cases opener with
    | if_ condition chain =>
      simp only [openArm?, behind, List.map_cons, Block.raise, Opener.raise, List.length_map]
      split <;> rfl
    | _ => rfl

end State

structure State.Movable (s : State) : Prop where
  sound : s.Sound
  inner : ∀ b ∈ s.blocks, ∀ id, b.opener.scope? = some id → id ≠ root

theorem Traced.inner {ls : List Line} {k : Nat} {o : Option Nat} {stack : List Opener}
    (h : Traced ls k o stack) : ∀ o ∈ stack, ∀ id, o.scope? = some id → id ≠ root := by
  induction h with
  | nil => exact List.forall_mem_nil _
  | cons _ _ opened _ _ ih => exact List.forall_mem_cons.2 ⟨opened.ne_root, ih⟩

theorem Reached.movable {ls : List Line} {k : Nat} {s : State} (h : Reached ls k s) :
    s.Movable where
  sound := h.sound
  inner b mem := by
    obtain ⟨o, traced⟩ := h.traced
    exact traced.inner b.opener (List.mem_map_of_mem mem)

namespace State.Movable

variable {t : SymbolTree} {r : Symbol} (ht : t.get? root = some r) (entry : List Stmt)
  {s : State} (config : Config) (line : Nat) {ws : List Lexeme}

theorem get?_root (h : s.Movable) : ∃ p, s.symbols.get? root = some p :=
  get?_isSome_of_lt h.sound.wellFormed.root_lt

theorem add (h : s.Movable) (stmt : Stmt) : (s.add stmt).Movable where
  sound := h.sound.add stmt
  inner := by
    obtain ⟨symbols, entry, blocks⟩ := s
    have inner := h.inner
    cases blocks with
    | nil => exact inner
    | cons b outer =>
      rw [List.forall_mem_cons] at inner
      exact List.forall_mem_cons.2 inner

section Ends

include ht

theorem finish {b : Block} (h : s.Movable) (known : b.opener.Known s.symbols)
    (inner : ∀ id, b.opener.scope? = some id → id ≠ root) : ∃ u, s.finish b = .ok u ∧ u.Movable ∧
      (s.behind t entry).finish (b.raise (t.size - 1)) = .ok (u.behind t entry) := by
  obtain ⟨u, hu, sound⟩ := h.sound.finish known
  obtain ⟨p, hp⟩ := h.get?_root
  obtain ⟨opener, line, body⟩ := b
  refine ⟨u, hu, ?_⟩
  cases opener with
  | class_ id =>
    cases hu
    exact ⟨h, rfl⟩
  | function id arguments =>
    obtain ⟨symbols, hs, eq⟩ := bind_eq_ok.1 hu
    cases eq
    have there := setFunction_graft ht hp (inner id rfl) hs
    exact ⟨⟨sound, h.inner⟩, bind_eq_ok.2 ⟨_, there, rfl⟩⟩
  | _ =>
    cases hu
    refine ⟨h.add _, ?_⟩
    rw [behind_add]
    rfl

theorem leave (h : s.Movable) : ∃ u, s.leave = .ok u ∧ u.Movable ∧
    (s.behind t entry).leave = .ok (u.behind t entry) := by
  obtain ⟨symbols, entry', blocks⟩ := s
  cases blocks with
  | nil => exact ⟨_, rfl, h, rfl⟩
  | cons b outer =>
    obtain ⟨⟨wf, known⟩, inner⟩ := h
    rw [List.forall_mem_cons] at known inner
    have outside : State.Movable ⟨symbols, entry', outer⟩ := ⟨⟨wf, known.2⟩, inner.2⟩
    exact outside.finish ht entry known.1 inner.1

theorem leaveMany (n : Nat) (h : s.Movable) : ∃ u, s.leaveMany n = .ok u ∧ u.Movable ∧
    (s.behind t entry).leaveMany n = .ok (u.behind t entry) := by
  induction n generalizing s with
  | zero => exact ⟨s, rfl, h, rfl⟩
  | succ n ih =>
    obtain ⟨v, hv, movable, there⟩ := h.leave ht entry
    obtain ⟨u, hu, movable', there'⟩ := ih movable
    exact ⟨u, bind_eq_ok.2 ⟨v, hv, hu⟩, movable', bind_eq_ok.2 ⟨_, there, there'⟩⟩

theorem leaveTo (height : Nat) (h : s.Movable) : ∃ u, s.leaveTo height = .ok u ∧ u.Movable ∧
    (s.behind t entry).leaveTo height = .ok (u.behind t entry) := by
  obtain ⟨u, hu, movable, there⟩ := h.leaveMany ht entry (s.blocks.length - height)
  refine ⟨u, hu, movable, ?_⟩
  rw [State.leaveTo, length_behind]
  exact there

end Ends

section Lines

include ht

theorem declareArguments_graft {u : SymbolTree} {p : Symbol} {id : Nat} (hu : u.get? root = some p)
    (ne : id ≠ root) (lt : id < u.size) (arguments : List String) :
    State.declareArguments (SymbolTree.raise (t.size - 1) id) arguments (t.graft u) =
      (State.declareArguments id arguments u).map t.graft := by
  induction arguments generalizing u p with
  | nil => rfl
  | cons x arguments ih =>
    rw [declareArguments_cons, declareArguments_cons,
      declare_graft ht hu lt (fun eq => absurd eq ne)]
    cases hv : u.declare id x .variable_ with
    | error f => rfl
    | ok d =>
      have size := (size_declare hv).2
      have grown : root < d.1.size := Nat.lt_of_lt_of_le (get?_lt hu) (by omega)
      obtain ⟨q, hq⟩ := get?_isSome_of_lt grown
      exact ih hq (by omega)

theorem declare (h : s.Movable) {x : String}
    (free : s.scope = root → r.children.lookup x = none) (kind : SymbolKind) :
    (s.behind t entry).symbols.declare (s.behind t entry).scope x kind =
      (s.symbols.declare s.scope x kind).map
        fun d => (t.graft d.1, SymbolTree.raise (t.size - 1) d.2) := by
  obtain ⟨p, hp⟩ := h.get?_root
  rw [scope_behind]
  exact declare_graft ht hp h.sound.scope_lt free kind

theorem declareFunction (h : s.Movable) {x : String} (arguments : List String)
    (free : s.scope = root → r.children.lookup x = none) :
    (s.behind t entry).perform config line (.function x arguments) =
      (s.perform config line (.function x arguments)).map (behind t entry) := by
  simp only [State.perform]
  rw [h.declare ht entry free]
  cases hd : s.symbols.declare s.scope x .function with
  | error f => rfl
  | ok d =>
    obtain ⟨number, size⟩ := size_declare hd
    have positive := h.sound.wellFormed.root_lt
    have inner : d.2 ≠ root := by simp only [root] at *; omega
    have grown : root < d.1.size := by simp only [root] at *; omega
    obtain ⟨q, hq⟩ := get?_isSome_of_lt grown
    show (declareArguments (SymbolTree.raise (t.size - 1) d.2) arguments (t.graft d.1) >>= _) = _
    rw [declareArguments_graft ht hq inner (by omega)]
    exact map_bind_comm fun v => enter_behind t entry { s with symbols := v } line config.maxDepth
      (.function d.2 arguments)

theorem perform (h : s.Movable) {hd : Header}
    (free : s.scope = root → ∀ x, hd.name? = some x → r.children.lookup x = none) :
    (s.behind t entry).perform config line hd =
      (s.perform config line hd).map (behind t entry) := by
  cases hd using Header.byEffect with
  | opens hd o opens =>
    have fixed : o.raise (t.size - 1) = o := by cases hd <;> cases opens <;> rfl
    have entered := enter_behind t entry s line config.maxDepth o
    rw [fixed] at entered
    rw [perform_of_opener opens, perform_of_opener opens, directlyInClass_behind]
    split
    · rfl
    · exact entered
  | leaf hd leaf =>
    obtain ⟨stmt, leaf⟩ := leaf line
    rw [perform_of_leaf leaf, perform_of_leaf leaf, directlyInClass_behind]
    split
    · rfl
    · exact congrArg Except.ok (behind_add t entry s stmt).symm
  | class_ x =>
    simp only [State.perform]
    rw [h.declare ht entry fun top => free top x rfl]
    exact map_bind_comm fun d =>
      enter_behind t entry { s with symbols := d.1 } line config.maxDepth (.class_ d.2)
  | function x arguments =>
    exact h.declareFunction ht entry config line arguments fun top => free top x rfl
  | elseIf | else_ => rfl

theorem read (h : s.Movable) (free : s.scope = root → ∀ x, declaredName? ws = some x →
    r.children.lookup x = none) :
    (s.behind t entry).read config line ws = (s.read config line ws).map (behind t entry) := by
  cases ws with
  | nil => rfl
  | cons first rest =>
    rw [read_cons, read_cons, setting_behind, directlyInClass_behind]
    cases parses : Header.parse (s.setting config) s.directlyInClass first rest with
    | error f => rfl
    | ok hd =>
      rw [(Header.reads_of_parse parses).name?] at free
      exact h.perform ht entry config line free

theorem step {l : Line} (h : s.Movable)
    (free : ∀ u, l.indentation ≤ s.blocks.length → s.leaveTo l.indentation = .ok u →
      u.scope = root → ∀ x, declaredName? l.lexemes = some x → r.children.lookup x = none) :
    (s.behind t entry).step config l = (s.step config l).map (behind t entry) := by
  unfold State.step
  rw [length_behind]
  split
  · rfl
  · next level =>
    have le := Nat.not_lt.1 level
    obtain ⟨u, hu, movable, there⟩ := h.leaveTo ht entry (l.indentation + 1)
    obtain ⟨v, hv, movable', there'⟩ := movable.leaveTo ht entry l.indentation
    have direct : s.leaveTo l.indentation = .ok v := by
      rw [← leaveTo_succ, hu]
      exact hv
    have plain := movable'.read ht entry config l.number (free v le direct)
    rw [hu, there]
    simp only [bind, Except.bind, openArm?_behind, hv, there']
    cases u.openArm? l.indentation with
    | none => exact plain
    | some found =>
      cases afterElse? l.lexemes with
      | none => exact plain
      | some rest => exact otherwise_behind t entry found.2.2 config l.number rest found.1 found.2.1

theorem step_taken {l : Line} {u : State} {x : String} (h : s.Movable)
    (le : l.indentation ≤ s.blocks.length) (left : s.leaveTo l.indentation = .ok u)
    (top : u.scope = root) (named : declaredName? l.lexemes = some x)
    (taken : r.children.lookup x ≠ none) :
    (s.behind t entry).step config l = .error (.nameTaken x) := by
  obtain ⟨first, header, lexemes, declares⟩ := declaredName?_eq_some named
  have plain : afterElse? l.lexemes = none := by
    rw [lexemes]
    rcases declares with ⟨kind, -⟩ | ⟨kind, -⟩ <;> simp [afterElse?, kind]
  obtain ⟨v, hv, movable, there⟩ := h.leaveTo ht entry l.indentation
  cases left.symm.trans hv
  obtain ⟨p, hp⟩ := movable.get?_root
  have refused (kind : SymbolKind) : (u.behind t entry).symbols.declare
      (u.behind t entry).scope x kind = .error (.nameTaken x) := by
    rw [scope_behind, top]
    exact declare_graft_taken ht hp taken kind
  rw [step_of_not_else (by rwa [length_behind]) plain, there, lexemes]
  rcases declares with ⟨kind, names⟩ | ⟨kind, arguments, names⟩
  · simp only [bind, Except.bind, State.read, kind, State.declareClass, names, refused]
  · simp only [bind, Except.bind, State.read, kind, State.declareFunction, names, refused]

end Lines

end State.Movable

end Module

end Offside
