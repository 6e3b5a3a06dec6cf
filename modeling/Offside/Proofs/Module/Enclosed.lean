import Mathlib
import Offside.Proofs.Module.Prefix
import Offside.Proofs.Module.Trace

/-!
A class or a function at the margin, and the lines in it. As long as the lines are indented, they
stay within its block: whatever they say, no statement gets out to the entry function, and no else
line behind them finds an if statement to go on with.
-/

namespace Offside.Module

open SymbolTree

/-- A class or a function line at the margin and indented lines behind it. -/
def IsDeclaration (ls : List Line) : Prop :=
  ∃ head inner, ls = head :: inner ∧ head.indentation = 0 ∧ (Role.of head.lexemes).declares ∧
    ∀ l ∈ inner, 0 < l.indentation

namespace State

/-- Nothing has got out to the entry function, and the outermost block is a class or a function. -/
structure Enclosed (s : State) : Prop where
  entry : s.entry = []
  outermost : ∀ o ∈ s.openers.getLast?, o.scope?.isSome

variable {config : Config} {line : Nat} {s s' t : State} {ws : List Lexeme} {b : Block}
  {o : Opener}

namespace Enclosed

theorem start (name : String) : (State.start name).Enclosed where
  entry := rfl
  outermost := by rintro o ⟨⟩

theorem of_eq (h : s.Enclosed) (entry : t.entry = s.entry) (openers : t.openers = s.openers) :
    t.Enclosed :=
  ⟨entry.trans h.entry, openers ▸ h.outermost⟩

theorem tail (h : ({ s with blocks := b :: s.blocks } : State).Enclosed) : s.Enclosed where
  entry := h.entry
  outermost o mem := by
    refine h.outermost o ?_
    rw [openers, List.map_cons, List.getLast?_cons]
    rw [openers] at mem
    rw [Option.mem_def.1 mem]
    rfl

theorem inside (h : ({ s with blocks := b :: s.blocks } : State).Enclosed)
    (other : b.opener.scope? = none) : s.blocks ≠ [] := by
  intro none_
  have outermost := h.outermost b.opener (by rw [openers, List.map_cons, none_]; rfl)
  rw [other] at outermost
  cases outermost

theorem add (h : s.Enclosed) (inside : s.blocks ≠ []) (stmt : Stmt) : (s.add stmt).Enclosed := by
  refine h.of_eq ?_ (openers_add stmt s)
  obtain ⟨c, outer, eq⟩ := List.exists_cons_of_ne_nil inside
  rw [State.add, eq]

theorem enter (h : s.Enclosed) {maxDepth : Nat} (inside : s.blocks = [] → o.scope?.isSome)
    (ok : s.enter maxDepth o line = .ok t) : t.Enclosed := by
  obtain ⟨-, rfl⟩ := enter_eq_ok.1 ok
  refine ⟨h.entry, fun o' mem => ?_⟩
  cases blocks : s.blocks with
  | nil =>
    rw [openers, blocks] at mem
    cases mem
    exact inside blocks
  | cons c outer =>
    refine h.outermost o' ?_
    rw [openers, blocks] at mem ⊢
    exact mem

section Ends

theorem finish (h : ({ s with blocks := b :: s.blocks } : State).Enclosed)
    (ok : s.finish b = .ok t) : t.Enclosed := by
  have inside := h.inside
  obtain ⟨opener, line, body⟩ := b
  cases opener with
  | class_ id =>
    cases ok
    exact h.tail
  | function id arguments =>
    obtain ⟨symbols, -, eq⟩ := bind_eq_ok.1 ok
    cases eq
    exact h.tail.of_eq rfl rfl
  | _ =>
    cases ok
    exact h.tail.add (inside rfl) _

theorem leave (h : s.Enclosed) (ok : s.leave = .ok t) : t.Enclosed := by
  obtain ⟨symbols, entry, blocks⟩ := s
  cases blocks with
  | nil =>
    cases ok
    exact h
  | cons b outer => exact finish (s := ⟨symbols, entry, outer⟩) h ok

theorem leaveMany {n : Nat} (h : s.Enclosed) (ok : s.leaveMany n = .ok t) : t.Enclosed := by
  induction n generalizing s with
  | zero =>
    cases ok
    exact h
  | succ n ih =>
    obtain ⟨u, hu, ok⟩ := bind_eq_ok.1 ok
    exact ih (h.leave hu) ok

end Ends

section Lines

theorem perform {hd : Header} (h : s.Enclosed) (inside : s.blocks = [] → hd.role.declares)
    (ok : s.perform config line hd = .ok t) : t.Enclosed := by
  cases hd using Header.byEffect with
  | opens hd o opens =>
    refine h.enter (fun outside => ?_) ((perform_opener opens).1 ok).2
    have declares := inside outside
    cases hd <;> cases opens <;> cases declares
  | leaf hd leaf =>
    obtain ⟨stmt, leaf⟩ := leaf line
    obtain ⟨-, rfl⟩ := (perform_leaf leaf).1 ok
    refine h.add (fun outside => ?_) stmt
    have declares := inside outside
    cases hd <;> cases leaf <;> cases declares
  | class_ x =>
    obtain ⟨u, id, v, -, -, entered⟩ := perform_class.1 ok
    have moved : ({ s with symbols := v } : State).Enclosed := h.of_eq rfl rfl
    exact moved.enter (fun _ => rfl) entered
  | function x arguments =>
    obtain ⟨u, id, v, -, -, entered⟩ := perform_function.1 ok
    have moved : ({ s with symbols := v } : State).Enclosed := h.of_eq rfl rfl
    exact moved.enter (fun _ => rfl) entered
  | elseIf | else_ => cases ok

theorem read (h : s.Enclosed) (inside : s.blocks = [] → (Role.of ws).declares)
    (ok : s.read config line ws = .ok t) : t.Enclosed := by
  cases ws with
  | nil =>
    cases ok
    exact h
  | cons first rest =>
    rw [read_cons] at ok
    obtain ⟨hd, parses, ok⟩ := bind_eq_ok.1 ok
    rw [(Header.reads_of_parse parses).role] at inside
    exact h.perform inside ok

theorem openArm? {height : Nat} {arm : Arm} {chain : List Arm} {outer : State} (h : s.Enclosed)
    (found : s.openArm? height = some (arm, chain, outer)) :
    outer.Enclosed ∧ outer.blocks ≠ [] := by
  obtain ⟨symbols, entry, blocks⟩ := s
  unfold State.openArm? at found
  split at found
  · next inner eq =>
    obtain rfl : blocks = _ := eq
    split at found
    · cases found
      have within : ({ (⟨symbols, entry, inner⟩ : State) with blocks := _ :: inner } :
        State).Enclosed := h
      exact ⟨within.tail, within.inside rfl⟩
    · cases found
  · cases found

theorem step {l : Line} (h : s.Enclosed) (inside : 0 < l.indentation)
    (ok : s.step config l = .ok t) : t.Enclosed := by
  have level := le_of_step ok
  rw [State.step, if_neg (Nat.not_lt.2 level)] at ok
  obtain ⟨u, left, ok⟩ := bind_eq_ok.1 ok
  have around := h.leaveMany left
  split at ok
  · next arm chain outer rest found _ =>
    obtain ⟨enclosed, inner⟩ := around.openArm? found
    rw [otherwise_eq_parse] at ok
    obtain ⟨hd, -, ok⟩ := bind_eq_ok.1 ok
    cases hd with
    | elseIf | else_ => exact enclosed.enter (fun outside => absurd outside inner) ok
    | _ => cases ok
  · obtain ⟨v, left', ok⟩ := bind_eq_ok.1 ok
    have total := length_leaveTo left
    have total' := length_leaveTo left'
    refine (around.leaveMany left').read (fun outside => ?_) ok
    rw [outside, List.length_nil] at total'
    omega

theorem readAll {ls : List Line} (h : s.Enclosed) (inside : ∀ l ∈ ls, 0 < l.indentation)
    (ok : s.readAll config ls = .ok t) : t.Enclosed := by
  induction ls generalizing s with
  | nil =>
    cases ok
    exact h
  | cons l ls ih =>
    rw [readAll_cons] at ok
    obtain ⟨u, hu, ok⟩ := bind_eq_ok.1 ok
    rw [List.forall_mem_cons] at inside
    exact ih (h.step inside.1 (atLine_eq_ok.1 hu)) inside.2 ok

theorem else_refused {l : Line} (h : s.Enclosed) (margin : l.indentation = 0)
    (isElse : afterElse? l.lexemes ≠ none) : s.step config l ≠ .ok t := by
  intro ok
  have level := le_of_step ok
  rw [State.step, if_neg (Nat.not_lt.2 level)] at ok
  obtain ⟨u, left, ok⟩ := bind_eq_ok.1 ok
  split at ok
  · next arm chain outer rest found _ =>
    obtain ⟨-, inner⟩ := (h.leaveMany left).openArm? found
    obtain ⟨-, -, length, -⟩ := openArm?_eq_some found
    exact inner (List.length_eq_zero_iff.1 (length.trans margin))
  · obtain ⟨v, -, ok⟩ := bind_eq_ok.1 ok
    obtain ⟨rest, some_⟩ := Option.ne_none_iff_exists'.1 isElse
    obtain ⟨first, eq, kind⟩ := afterElse?_eq_some some_
    rw [eq, read_else kind] at ok
    cases ok

end Lines

end Enclosed

end State

variable {config : Config} {name : String} {d b : List Line} {s : State} {t : SymbolTree}

theorem declares_ofElse (ws : List Lexeme) : (Role.ofElse ws).declares = false := by
  unfold Role.ofElse
  split
  · split <;> rfl
  · rfl

theorem afterElse?_of_declares {ws : List Lexeme} (h : (Role.of ws).declares) :
    afterElse? ws = none := by
  by_contra isElse
  obtain ⟨rest, some_⟩ := Option.ne_none_iff_exists'.1 isElse
  obtain ⟨first, rfl, kind⟩ := State.afterElse?_eq_some some_
  simp only [Role.of, kind, declares_ofElse] at h
  cases h

namespace IsDeclaration

theorem head (h : IsDeclaration d) (b : List Line) : ∀ l, (d ++ b).head? = some l →
    l.indentation = 0 ∧ afterElse? l.lexemes = none := by
  obtain ⟨first, inner, rfl, margin, declares, -⟩ := h
  rintro l ⟨⟩
  exact ⟨margin, afterElse?_of_declares declares⟩

theorem enclosed (h : IsDeclaration d)
    (ok : (State.start name).readAll config d = .ok s) : s.Enclosed := by
  obtain ⟨first, inner, rfl, margin, declares, inside⟩ := h
  rw [readAll_cons] at ok
  obtain ⟨u, hu, ok⟩ := bind_eq_ok.1 ok
  rw [atLine_eq_ok, State.step_of_not_else (Nat.le_of_eq margin)
    (afterElse?_of_declares declares)] at hu
  obtain ⟨v, left, read⟩ := bind_eq_ok.1 hu
  have around := (State.Enclosed.start name).leaveMany left
  exact (around.read (fun _ => declares) read).readAll inside ok

theorem plain_behind (h : IsDeclaration d) (margin : ∀ l, b.head? = some l → l.indentation = 0)
    (ok : symbolsOf config name (d ++ b) = .ok t) : ∀ l, b.head? = some l →
      l.indentation = 0 ∧ afterElse? l.lexemes = none := by
  intro l first
  refine ⟨margin l first, ?_⟩
  by_contra isElse
  obtain ⟨rest, rfl⟩ := List.head?_eq_some_iff.1 first
  obtain ⟨s, read, -⟩ := bind_eq_ok.1 ok
  rw [State.readAll_append] at read
  obtain ⟨u, before, read⟩ := bind_eq_ok.1 read
  rw [readAll_cons] at read
  obtain ⟨v, step, -⟩ := bind_eq_ok.1 read
  exact (h.enclosed before).else_refused (margin l first) isElse (atLine_eq_ok.1 step)

theorem entry (h : IsDeclaration d) (ok : symbolsOf config name d = .ok t) :
    t.function? root = some ⟨[], []⟩ := by
  obtain ⟨s, read, done⟩ := bind_eq_ok.1 ok
  obtain ⟨u, left, set⟩ := bind_eq_ok.1 (atLine_eq_ok.1 done)
  have none_ := ((h.enclosed read).leaveMany left).entry
  rw [none_] at set
  rw [function?_setFunction set, if_pos rfl]
  rfl

end IsDeclaration

end Offside.Module
