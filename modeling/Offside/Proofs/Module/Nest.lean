import Offside.Proofs.Module.Reading
import Offside.Proofs.Module.Trace

/-!
An else-if chain against the same arms in a bare else block. From the else line on, the one has a
longer chain where the other has one more block, and both come to the same statement when the
arm ends. Lines in the arm are one level deeper in the block; the blocks and links around them
together are as many.
-/

namespace Offside

/-- Both computations come to results that belong together, or both to the same fault. -/
def Agree {α β : Type} (R : α → β → Prop) : Except Fault α → Except Fault β → Prop
  | .ok a, .ok b => R a b
  | .error f, .error g => f = g
  | _, _ => False

namespace Agree

variable {α β γ δ : Type} {R : α → β → Prop} {Q : γ → δ → Prop}

theorem bind {x : Except Fault α} {y : Except Fault β} {f : α → Except Fault γ}
    {g : β → Except Fault δ} (h : Agree R x y)
    (next : ∀ a b, x = .ok a → y = .ok b → R a b → Agree Q (f a) (g b)) :
    Agree Q (x >>= f) (y >>= g) := by
  cases x <;> cases y
  · exact h
  · cases h
  · cases h
  · exact next _ _ rfl rfl h

theorem mono {P : α → β → Prop} {x : Except Fault α} {y : Except Fault β} (h : Agree R x y)
    (weaker : ∀ a b, R a b → P a b) : Agree P x y := by
  cases x <;> cases y
  · exact h
  · cases h
  · cases h
  · exact weaker _ _ h

theorem same {x : Except Fault α} {f : α → Except Fault γ} {g : α → Except Fault δ}
    (next : ∀ a, x = .ok a → Agree Q (f a) (g a)) : Agree Q (x >>= f) (x >>= g) := by
  cases x with
  | error f => exact rfl
  | ok a => exact next a rfl

theorem bind_eq {x : Except Fault α} {y : Except Fault β} {f : α → Except Fault γ}
    {g : β → Except Fault γ} (h : Agree R x y)
    (next : ∀ a b, x = .ok a → y = .ok b → R a b → f a = g b) : x >>= f = y >>= g := by
  cases x <;> cases y
  · exact congrArg Except.error h
  · cases h
  · cases h
  · exact next _ _ rfl rfl h

theorem atLine_bind {x : Except Fault α} {y : Except Fault β} {f : α → Except Error γ}
    {g : β → Except Error γ} {line : Nat} (h : Agree R x y) (next : ∀ a b, R a b → f a = g b) :
    atLine line x >>= f = atLine line y >>= g := by
  cases x <;> cases y
  · exact congrArg (fun f : Fault => (.error ⟨line, f⟩ : Except Error γ)) h
  · cases h
  · cases h
  · exact next _ _ h

end Agree

namespace Module

/-- An arm in a chain of its own, and the same arm with more arms before it. -/
inductive Prolongs (more : List Arm) : Opener → Opener → Prop
  | if_ (c : Expr) (chain : List Arm) : Prolongs more (.if_ c chain) (.if_ c (chain ++ more))
  | else_ (arm : Arm) (chain : List Arm) :
    Prolongs more (.else_ arm chain) (.else_ arm (chain ++ more))

/-- The blocks `outer`, and in them an arm that goes on with `arm` and those before it: on the
left in the else block that line `n` opens, on the right in their chain. Other blocks may be open
in the arm. -/
inductive Nests (arm : Arm) (chain : List Arm) (n : Nat) (outer : List Block) :
    List Block → List Block → Prop
  | here {o o' line body} : Prolongs (arm :: chain) o o' → Nests arm chain n outer
      (⟨o, line, body⟩ :: ⟨.else_ arm chain, n, []⟩ :: outer) (⟨o', line, body⟩ :: outer)
  | inner {b xs ys} : Nests arm chain n outer xs ys → Nests arm chain n outer (b :: xs) (b :: ys)

section Blocks

variable {arm : Arm} {more chain : List Arm} {n : Nat} {o o' : Opener} {outer xs ys : List Block}

namespace Prolongs

variable (h : Prolongs more o o')

include h

theorem scope? : o.scope? = none ∧ o'.scope? = none := by
  cases h <;> exact ⟨rfl, rfl⟩

theorem isClass : o.isClass = false ∧ o'.isClass = false := by
  cases h <;> exact ⟨rfl, rfl⟩

theorem links : o'.links = o.links + more.length := by
  cases h <;> exact List.length_append

end Prolongs

namespace Nests

variable (h : Nests arm chain n outer xs ys)

include h

theorem length : xs.length = ys.length + 1 := by
  induction h with
  | here => rfl
  | inner _ ih => simp [ih]

theorem lt_length : outer.length < ys.length := by
  induction h with
  | here => exact Nat.lt_succ_self _
  | inner _ ih => exact Nat.lt_succ_of_lt ih

theorem findSome?_scope? : xs.findSome? (·.opener.scope?) = ys.findSome? (·.opener.scope?) := by
  induction h with
  | here arms =>
    simp only [List.findSome?_cons, arms.scope?]
    rfl
  | inner _ ih => rw [List.findSome?_cons, ih, List.findSome?_cons]

theorem find?_scope? : xs.find? (·.opener.scope?.isSome) = ys.find? (·.opener.scope?.isSome) := by
  induction h with
  | here arms =>
    simp only [List.find?_cons, arms.scope?]
    rfl
  | inner _ ih => rw [List.find?_cons, ih, List.find?_cons]

theorem any_isClass : xs.any (·.opener.isClass) = ys.any (·.opener.isClass) := by
  induction h with
  | here arms =>
    simp only [List.any_cons, arms.isClass]
    rfl
  | inner _ ih => rw [List.any_cons, ih, List.any_cons]

theorem foldr_links : ys.foldr (fun b n => b.opener.links + n) 0 =
    xs.foldr (fun b n => b.opener.links + n) 0 + 1 := by
  induction h with
  | here arms =>
    have links : (Opener.else_ arm chain).links = chain.length := rfl
    simp only [List.foldr_cons, arms.links, links, List.length_cons]
    omega
  | inner _ ih =>
    simp only [List.foldr_cons, ih]
    omega

end Nests

end Blocks

namespace State

structure Nests (arm : Arm) (chain : List Arm) (n : Nat) (outer : List Block) (s t : State) :
    Prop where
  symbols : s.symbols = t.symbols
  entry : s.entry = t.entry
  blocks : Module.Nests arm chain n outer s.blocks t.blocks

section Enter

variable {config : Config} {more chain : List Arm} {arm : Arm} {n : Nat} {outer : List Block}

theorem enter_prolongs {o o' : Opener} (arms : Prolongs (arm :: chain) o o') (s : State) (line : Nat) :
    Agree (Nests arm chain n s.blocks)
      ({ s with blocks := ⟨.else_ arm chain, n, []⟩ :: s.blocks }.enter config.maxDepth o line)
      (s.enter config.maxDepth o' line) := by
  have inside : links { s with blocks := ⟨.else_ arm chain, n, []⟩ :: s.blocks } =
      chain.length + s.links := rfl
  have level : s.blocks.length + 1 + (chain.length + s.links) + o.links =
      s.blocks.length + s.links + o'.links := by
    rw [arms.links, List.length_cons]
    omega
  rw [enter, enter, List.length_cons, inside, level]
  split
  · exact rfl
  · exact ⟨rfl, rfl, .here arms⟩

theorem otherwise_prolongs (s : State) (line : Nat) (rest : List Lexeme) (last : Arm)
    (before : List Arm) : Agree (Nests arm chain n s.blocks)
      ({ s with blocks := ⟨.else_ arm chain, n, []⟩ :: s.blocks }.otherwise config line rest last
        before)
      (s.otherwise config line rest last (before ++ arm :: chain)) := by
  rw [otherwise_eq_parse, otherwise_eq_parse]
  refine .same fun hd _ => ?_
  cases hd with
  | elseIf c => exact enter_prolongs (.if_ c (last :: before)) s line
  | else_ => exact enter_prolongs (.else_ last before) s line
  | _ => exact rfl

end Enter

namespace Nests

variable {config : Config} {arm : Arm} {chain : List Arm} {n line : Nat} {outer : List Block}
  {s t : State} (h : Nests arm chain n outer s t)

include h

theorem length : s.blocks.length = t.blocks.length + 1 :=
  h.blocks.length

theorem scope : s.scope = t.scope :=
  congrArg (Option.getD · SymbolTree.root) h.blocks.findSome?_scope?

theorem directlyInClass : s.directlyInClass = t.directlyInClass := by
  rw [State.directlyInClass, h.blocks.find?_scope?, State.directlyInClass]

theorem setting : s.setting config = t.setting config :=
  congrArg (Expr.Setting.mk config.maxDepth) h.blocks.any_isClass

theorem enter (o : Opener) : Agree (Nests arm chain n outer) (s.enter config.maxDepth o line)
    (t.enter config.maxDepth o line) := by
  have links : t.links = s.links + 1 := h.blocks.foldr_links
  have level : s.blocks.length + s.links = t.blocks.length + t.links := by
    rw [h.length, links]
    omega
  rw [State.enter, State.enter, level]
  split
  · exact rfl
  · exact ⟨h.symbols, h.entry, .inner h.blocks⟩

theorem add (stmt : Stmt) : Nests arm chain n outer (s.add stmt) (t.add stmt) := by
  obtain ⟨symbols, entry, xs⟩ := s
  obtain ⟨symbols', entry', ys⟩ := t
  obtain ⟨eq, eq', blocks⟩ := h
  cases blocks with
  | here arms => exact ⟨eq, eq', .here arms⟩
  | inner blocks => exact ⟨eq, eq', .inner blocks⟩

theorem declared (symbols : SymbolTree) :
    Nests arm chain n outer { s with symbols } { t with symbols } :=
  ⟨rfl, h.entry, h.blocks⟩

section Ends

theorem finish (b : Block) :
    Agree (Nests arm chain n outer) (s.finish b) (t.finish b) := by
  obtain ⟨opener, line, body⟩ := b
  cases opener with
  | class_ id => exact h
  | function id arguments =>
    rw [State.finish, State.finish, h.symbols]
    exact .same fun symbols _ => h.declared symbols
  | _ => exact h.add _

theorem leave (lt : outer.length + 1 < t.blocks.length) :
    Agree (Nests arm chain n outer) s.leave t.leave := by
  obtain ⟨symbols, entry, xs⟩ := s
  obtain ⟨symbols', entry', ys⟩ := t
  obtain ⟨rfl, rfl, blocks⟩ := h
  cases blocks with
  | here => simp at lt
  | @inner b xs ys blocks =>
    have inside : Nests arm chain n outer ⟨symbols, entry, xs⟩ ⟨symbols, entry, ys⟩ :=
      ⟨rfl, rfl, blocks⟩
    exact inside.finish b

theorem leaveTo {d : Nat} (lt : outer.length < d) :
    Agree (Nests arm chain n outer) (s.leaveTo (d + 1)) (t.leaveTo d) := by
  induction k : t.blocks.length - d generalizing s t with
  | zero =>
    have more := h.length
    rw [leaveTo_of_le (by omega), leaveTo_of_le (by omega)]
    exact h
  | succ k ih =>
    have more := h.length
    rw [leaveTo_of_lt (by omega), leaveTo_of_lt (by omega)]
    refine (h.leave (by omega)).bind fun u v _ left next => ih next ?_
    have shorter := length_leave left
    omega

theorem leave_leave (top : t.blocks.length = outer.length + 1) :
    ∃ u v, s.leave = .ok u ∧ u.leave = .ok v ∧ t.leave = .ok v := by
  obtain ⟨symbols, entry, xs⟩ := s
  obtain ⟨symbols', entry', ys⟩ := t
  obtain ⟨rfl, rfl, blocks⟩ := h
  cases blocks with
  | @here _ _ line body arms =>
    have both (before : List Arm) (stmt : Stmt) : chained (before ++ arm :: chain) stmt =
        chained chain (.ifElse arm.condition arm.body [chained before stmt] arm.line) :=
      List.foldl_append
    cases arms with
    | if_ | else_ =>
      refine ⟨_, _, rfl, rfl, ?_⟩
      simp only [State.leave, State.finish, both]
      rfl
  | inner blocks =>
    have := blocks.lt_length
    simp only [List.length_cons] at top
    omega

theorem leaveTo_isOk (top : t.blocks.length = outer.length + 1) :
    ∃ u v, s.leaveTo (outer.length + 1) = .ok u ∧ t.leaveTo outer.length = .ok v := by
  have more := h.length
  obtain ⟨u, v, left, -, left'⟩ := h.leave_leave top
  have shorter := length_leave left
  have shorter' := length_leave left'
  refine ⟨u, v, ?_, ?_⟩
  · rw [leaveTo_of_lt (by omega), left]
    exact leaveTo_of_le (by omega)
  · rw [leaveTo_of_lt (by omega), left']
    exact leaveTo_of_le (by omega)

theorem leaveTo_eq {d : Nat} (le : d ≤ outer.length) : s.leaveTo d = t.leaveTo d := by
  have lt := h.blocks.lt_length
  induction k : t.blocks.length - (outer.length + 1) generalizing s t with
  | zero =>
    have more := h.length
    have top : t.blocks.length = outer.length + 1 := by omega
    obtain ⟨u, v, left, twice, left'⟩ := h.leave_leave top
    have shorter := length_leave left
    rw [leaveTo_of_lt (by omega), left, leaveTo_of_lt (s := t) (by omega), left', ← twice]
    exact leaveTo_of_lt (by omega)
  | succ k ih =>
    have more := h.length
    rw [leaveTo_of_lt (by omega), leaveTo_of_lt (s := t) (by omega)]
    refine (h.leave (by omega)).bind_eq fun u v _ left next => ?_
    have shorter := length_leave left
    exact ih next next.blocks.lt_length (by omega)

end Ends

section Lines

theorem perform (hd : Header) : Agree (Nests arm chain n outer) (s.perform config line hd)
    (t.perform config line hd) := by
  cases hd using Header.byEffect with
  | opens hd o opens =>
    rw [perform_of_opener opens, perform_of_opener opens, h.directlyInClass]
    split
    · exact rfl
    · exact h.enter o
  | leaf hd leaf =>
    obtain ⟨stmt, leaf⟩ := leaf line
    rw [perform_of_leaf leaf, perform_of_leaf leaf, h.directlyInClass]
    split
    · exact rfl
    · exact h.add stmt
  | class_ name =>
    simp only [State.perform, h.scope, h.symbols]
    exact .same fun d _ => (h.declared d.1).enter _
  | function name arguments =>
    simp only [State.perform, h.scope, h.symbols]
    exact .same fun d _ => .same fun symbols _ => (h.declared symbols).enter _
  | elseIf | else_ => exact rfl

theorem read (ws : List Lexeme) : Agree (Nests arm chain n outer) (s.read config line ws)
    (t.read config line ws) := by
  cases ws with
  | nil => exact h
  | cons first rest =>
    rw [read_cons, read_cons, h.setting, h.directlyInClass]
    exact .same fun hd _ => h.perform hd

theorem otherwise (rest : List Lexeme) (arm' : Arm) (chain' : List Arm) :
    Agree (Nests arm chain n outer) (s.otherwise config line rest arm' chain')
      (t.otherwise config line rest arm' chain') := by
  rw [otherwise_eq_parse, otherwise_eq_parse, h.setting]
  refine .same fun hd _ => ?_
  cases hd with
  | elseIf c => exact h.enter _
  | else_ => exact h.enter _
  | _ => exact rfl

theorem openArm? {d : Nat} :
    (s.openArm? (d + 1) = none ∧ t.openArm? d = none) ∨
    ∃ arm' before after u v, s.openArm? (d + 1) = some (arm', before, u) ∧
      t.openArm? d = some (arm', after, v) ∧ ∀ line rest, Agree (Nests arm chain n outer)
        (u.otherwise config line rest arm' before) (v.otherwise config line rest arm' after) := by
  obtain ⟨symbols, entry, xs⟩ := s
  obtain ⟨symbols', entry', ys⟩ := t
  obtain ⟨rfl, rfl, blocks⟩ := h
  cases blocks with
  | @here _ _ line body arms =>
    cases arms with
    | else_ => exact .inl ⟨rfl, rfl⟩
    | if_ c before =>
      by_cases level : outer.length = d
      · exact .inr ⟨_, before, before ++ arm :: chain, _, _, if_pos (congrArg (· + 1) level),
          if_pos level, fun line rest => otherwise_prolongs ⟨symbols, entry, outer⟩ line rest _ before⟩
      · exact .inl ⟨if_neg fun eq => level (Nat.succ.inj eq), if_neg level⟩
  | @inner b xs ys blocks =>
    obtain ⟨opener, line, body⟩ := b
    have more := blocks.length
    cases opener with
    | if_ c before =>
      by_cases level : ys.length = d
      · have inside : Nests arm chain n outer ⟨symbols, entry, xs⟩ ⟨symbols, entry, ys⟩ :=
          ⟨rfl, rfl, blocks⟩
        exact .inr ⟨_, before, before, _, _, if_pos (by omega), if_pos level,
          fun line rest => inside.otherwise rest _ before⟩
      · exact .inl ⟨if_neg (by omega), if_neg level⟩
    | _ => exact .inl ⟨rfl, rfl⟩

variable (config)

/-- A line in the chain is read one level deeper in the else block. -/
theorem step {l : Line} (inChain : outer.length < l.indentation ∨
    l.indentation = outer.length ∧ (afterElse? l.lexemes).isSome) :
    Agree (Nests arm chain n outer)
      (s.step config { l with indentation := l.indentation + 1 }) (t.step config l) := by
  have level : s.blocks.length < l.indentation + 1 ↔ t.blocks.length < l.indentation := by
    rw [h.length]
    omega
  simp only [State.step, level]
  split
  · exact rfl
  · refine (h.leaveTo (by omega)).bind fun u v _ left next => ?_
    rcases next.openArm? (d := l.indentation) with ⟨hu, hv⟩ | ⟨_, _, _, _, _, hu, hv, goesOn⟩
    · rw [hu, hv]
      rcases inChain with deeper | ⟨same, isElse⟩
      · exact (next.leaveTo deeper).bind fun x y _ _ there => there.read l.lexemes
      · obtain ⟨rest, isElse⟩ := Option.isSome_iff_exists.1 isElse
        obtain ⟨first, lexemes, kind⟩ := afterElse?_eq_some isElse
        have top : v.blocks.length = outer.length + 1 := by
          have := length_leaveTo left
          have := next.blocks.lt_length
          omega
        obtain ⟨x, y, hx, hy⟩ := next.leaveTo_isOk top
        simp only [same, lexemes, bind, Except.bind, hx, hy, read_else kind]
        exact rfl
    · rw [hu, hv]
      cases after : afterElse? l.lexemes with
      | some rest => exact goesOn l.number rest
      | none =>
        rcases inChain with deeper | ⟨same, isElse⟩
        · exact (next.leaveTo deeper).bind fun x y _ _ there => there.read l.lexemes
        · simp [after] at isElse

theorem step_eq {l : Line} (outside : ¬ (outer.length < l.indentation ∨
    l.indentation = outer.length ∧ (afterElse? l.lexemes).isSome)) :
    s.step config l = t.step config l := by
  have le : l.indentation ≤ outer.length := by omega
  have lt := h.blocks.lt_length
  have more := h.length
  rcases Nat.lt_or_eq_of_le le with less | eq
  · have enough : ¬ s.blocks.length < l.indentation := by omega
    have enough' : ¬ t.blocks.length < l.indentation := by omega
    rw [State.step, State.step, if_neg enough, if_neg enough', h.leaveTo_eq less]
  · have plain : afterElse? l.lexemes = none := by
      rw [← Option.not_isSome_iff_eq_none]
      exact fun isElse => outside (.inr ⟨eq, isElse⟩)
    rw [step_of_not_else (by omega) plain, step_of_not_else (by omega) plain, h.leaveTo_eq le]

end Lines

end Nests

end State

end Module

end Offside
