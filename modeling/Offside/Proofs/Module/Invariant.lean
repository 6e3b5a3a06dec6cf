import Offside.Proofs.Module.Around

/-!
What is known after some of the lines: the open blocks, the symbols declared, and the
bodies of the functions that are no longer open. Blocks end one by one, each becoming what
its lines yield, until the opener of the next line is the innermost.
-/

namespace Offside.Module

variable (config : Config) (ls : List Line)

/-- The symbols after `k` lines, while the line `o` and those around it are open. -/
structure Table (name : String) (k : Nat) (o : Option Nat) (t : SymbolTree) : Prop where
  wellFormed : t.WellFormed
  declarations : t.declarations = declarations ls name k
  bodies : ∀ p, p < k → roleAt ls p = .function → p ∉ openers ls o →
    ∃ f, t.function? (symbolAt ls p) = some f ∧ f.arguments = (names ls p).tail ∧
      YieldsAll config ls (bodyOf ls (some p)) f.body

structure Inv (name : String) (k : Nat) (o : Option Nat) (s : State) : Prop where
  le : k ≤ ls.length
  around : Around config ls k s.entry k o s.blocks
  table : Table config ls name k o s.symbols
  named : ∀ i, i < k → (roleAt ls i).declares → names ls i ≠ []
  levels : ∀ i, i < k → indent ls i = (opener? ls i).elim 0 fun p => indent ls p + 1

variable {config ls} {name : String} {k p q d : Nat} {o : Option Nat} {s : State}

section Ends

theorem bodyOf_eq_units (le : k ≤ ls.length) (lt : p < k) (ends : indent ls k ≤ indent ls p) :
    bodyOf ls (some p) = units ls (some p) k := by
  apply units_extend le
  intro i hi _ _ opener
  obtain ⟨-, less, last⟩ := before_eq_some.1 opener
  rcases Nat.lt_or_eq_of_le hi with after | rfl
  · have := last k lt after
    omega
  · omega

theorem not_continues (since : ∀ i, p < i → i < k → indent ls p < indent ls i) (lt : p < k)
    (ends : indent ls k ≤ indent ls p) (next : ¬ Continues ls p k) (j : Nat) :
    ¬ Continues ls p j := by
  intro h
  rcases Nat.lt_trichotomy j k with before | rfl | after
  · have := since j h.lt before
    have := h.2.2
    omega
  · exact next h
  · have := h.deeper lt after
    omega

theorem units_closed (lt : q < k)
    (chain : ∀ i, q < i → i < k → indent ls q < indent ls i ∨ (roleAt ls i).isElse) :
    units ls (opener? ls q) k = units ls (opener? ls q) (q + 1) := by
  apply units_extend lt
  intro i hi lt' unit opener
  rcases chain i hi lt' with deeper | isElse
  · cases hq : opener? ls q with
    | none =>
      rw [hq] at opener
      have := before_eq_none.1 opener q hi
      omega
    | some j =>
      rw [hq] at opener
      have := (before_eq_some.1 opener).2.2 q (opener?_lt hq) hi
      omega
  · rw [Role.isUnit_of_isElse isElse] at unit
    cases unit

end Ends

namespace Table

variable {t u : SymbolTree}

theorem length (h : Table config ls name k o t) : t.size = symbolAt ls k := by
  rw [← SymbolTree.length_declarations, h.declarations, length_declarations]

theorem leave (h : Table config ls name k (some p) t) (role : roleAt ls p ≠ .function) :
    Table config ls name k (opener? ls p) t where
  wellFormed := h.wellFormed
  declarations := h.declarations
  bodies p' lt role' closed := by
    refine h.bodies p' lt role' ?_
    rw [openers_some, List.mem_cons, not_or]
    exact ⟨fun eq => role (eq ▸ role'), closed⟩

theorem setFunction {arguments : List String} {name' : String} {body : List Stmt}
    (h : Table config ls name k (some p) t) (lt : p < k)
    (named : ∀ i, i < k → (roleAt ls i).declares → names ls i ≠ [])
    (told : Says config ls p (.function name' arguments))
    (yields : YieldsAll config ls (bodyOf ls (some p)) body) :
    ∃ u, t.setFunction (symbolAt ls p) ⟨arguments, body⟩ = .ok u ∧
      Table config ls name k (opener? ls p) u := by
  have names := names_function told
  have declared := declarations_symbolAt names lt name
  rw [← h.declarations, told.role] at declared
  obtain ⟨u, hu⟩ := h.wellFormed.setFunction_isOk ⟨arguments, body⟩ declared rfl
  refine ⟨u, hu, h.wellFormed.setFunction hu, ?_, ?_⟩
  · rw [SymbolTree.declarations_setFunction hu, h.declarations]
  · intro p' lt' role closed
    rw [SymbolTree.function?_setFunction hu]
    by_cases eq : p' = p
    · subst eq
      rw [if_pos rfl]
      exact ⟨_, rfl, by rw [names]; rfl, yields⟩
    · have ne : symbolAt ls p' ≠ symbolAt ls p := fun same => by
        have hp' := named p' lt' (by rw [role]; rfl)
        exact eq (symbolAt_inj hp' (by simp [names]) same)
      rw [if_neg ne]
      refine h.bodies p' lt' role ?_
      rw [openers_some, List.mem_cons, not_or]
      exact ⟨eq, closed⟩

end Table

theorem Opens.finish {opener : Opener} {body : List Stmt} (h : Opens config ls p q opener)
    (role : (roleAt ls p).declares = false)
    (all : YieldsAll config ls (bodyOf ls (some p)) body.reverse)
    (last : ∀ j, ¬ Continues ls p j) (s : State) :
    ∃ stmt, s.finish ⟨opener, number ls p, body⟩ = .ok (s.add stmt) ∧
      Yields config ls q stmt ∧ (roleAt ls q).isUnit := by
  cases h with
  | class_ told | function told =>
    rw [told.role] at role
    cases role
  | while_ told => exact ⟨_, rfl, .while_ told all, by rw [told.role]; rfl⟩
  | for_ told => exact ⟨_, rfl, .for_ told all, by rw [told.role]; rfl⟩
  | foreach told => exact ⟨_, rfl, .foreach told all, by rw [told.role]; rfl⟩
  | if_ tests chain =>
    exact ⟨_, rfl, chain.yields (.if_ tests last all), by rw [chain.role]; rfl⟩
  | else_ told leaves chain =>
    refine ⟨_, rfl, chain.yields ?_, by rw [chain.role]; rfl⟩
    rw [leaves.line]
    exact .ifElse leaves.tests leaves.continues leaves.body (.else_ told all)

theorem symbols_add (stmt : Stmt) (s : State) : (s.add stmt).symbols = s.symbols := by
  unfold State.add
  split <;> rfl

theorem leaveTo_of_lt (h : d < s.blocks.length) :
    s.leaveTo d = s.leave >>= fun s => s.leaveTo d := by
  rw [State.leaveTo, show s.blocks.length - d = s.blocks.length - d - 1 + 1 by omega,
    State.leaveMany]
  cases hs : s.leave with
  | error => rfl
  | ok t =>
    have := State.length_leave hs
    exact congrArg (State.leaveMany · t) (by omega)

namespace Inv

theorem leave (h : Inv config ls name k (some p) s) (ends : indent ls k ≤ indent ls p)
    (next : ¬ Continues ls p k) :
    ∃ s', s.leave = .ok s' ∧ Inv config ls name k (opener? ls p) s' := by
  obtain ⟨symbols, entry, blocks⟩ := s
  obtain ⟨le, around, table, named, levels⟩ := h
  cases around with
  | @block _ _ q block outer lt opens line level body since chain rest =>
    obtain ⟨opener, _, lines⟩ := block
    cases line
    have all : YieldsAll config ls (bodyOf ls (some p)) lines.reverse := by
      rw [bodyOf_eq_units le lt ends]
      exact body
    have closed := units_closed (Nat.lt_of_le_of_lt opens.le lt) chain
    rw [opens.opener?] at closed
    cases role : (roleAt ls p).declares with
    | false =>
      have last := not_continues since lt ends next
      obtain ⟨stmt, finish, yields, unit⟩ := opens.finish role all last ⟨symbols, entry, outer⟩
      refine ⟨_, finish, le, rest.add (s := ⟨symbols, entry, outer⟩) yields ?_, ?_, named, levels⟩
      · rw [closed, units_succ_of_unit unit opens.opener?]
      · rw [symbols_add]
        exact table.leave fun isFunction => by simp [isFunction, Role.declares] at role
    | true =>
      cases opens with
      | class_ told =>
        have isClass : roleAt ls p ≠ .function := by simp [told.role, Header.role]
        refine ⟨_, rfl, le, rest.rebound ?_, table.leave isClass, named, levels⟩
        rw [closed, units_succ (by simp [told.role, Header.role, Role.isUnit])]
      | function told =>
        obtain ⟨u, hu, table⟩ := table.setFunction lt named told all
        refine ⟨⟨u, entry, outer⟩, ?_, le, rest.rebound ?_, table, named, levels⟩
        · simp only [State.leave, State.finish, hu]
          rfl
        · rw [closed, units_succ (by simp [told.role, Header.role, Role.isUnit])]
      | while_ told | for_ told | foreach told | else_ told =>
        rw [told.role] at role
        cases role
      | if_ tests =>
        rcases tests with told | told <;> rw [told.role] at role <;> cases role

theorem leaveTo (h : Inv config ls name k o s) (le : indent ls k ≤ d)
    (next : ∀ p, d ≤ indent ls p → ¬ Continues ls p k) :
    ∃ s', s.leaveTo d = .ok s' ∧
      Inv config ls name k (o.bind fun p => before ls d (p + 1)) s' := by
  induction n : s.blocks.length generalizing o s with
  | zero =>
    have length := h.around.length
    cases o with
    | none => exact ⟨s, by rw [State.leaveTo, n, Nat.zero_sub]; rfl, h⟩
    | some p => simp [n] at length
  | succ n ih =>
    have length := h.around.length
    cases o with
    | none => simp [n] at length
    | some p =>
      rw [n] at length
      rw [Option.bind_some]
      by_cases deep : d ≤ indent ls p
      · obtain ⟨u, hu, inv⟩ := h.leave (Nat.le_trans le deep) (next p deep)
        have shorter := State.length_leave hu
        obtain ⟨s', hs', inv'⟩ := ih inv (by omega)
        refine ⟨s', ?_, ?_⟩
        · rw [leaveTo_of_lt (by simp only [Option.elim_some] at length; omega), hu]
          exact hs'
        · rwa [before_skip (Nat.le_succ p) (fun q hq lt => by rwa [show q = p by omega]),
            before_opener? deep]
      · rw [before_succ_of_lt (Nat.not_le.1 deep)]
        refine ⟨s, ?_, h⟩
        simp only [Option.elim_some] at length
        rw [State.leaveTo, show s.blocks.length - d = 0 by omega]
        rfl

end Inv

end Offside.Module
