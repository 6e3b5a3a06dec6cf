import Offside.Proofs.Module.Accept

/-!
One line against the invariant: it is read if and only if it is accepted, and the invariant
goes on behind it. An else line is read where the if statement ends that it goes on with;
any other line is read inside of its opener.
-/

namespace Offside.Module

variable {config : Config} {ls : List Line} {name : String} {k q j : Nat} {o : Option Nat}
  {s s' t : State}

theorem afterElse?_eq_none {ws : List Lexeme} (h : (Role.of ws).isElse = false) :
    afterElse? ws = none := by
  match ws with
  | [] => rfl
  | first :: rest =>
    rw [afterElse?]
    split
    · next kind =>
      simp only [Role.of, kind, Role.ofElse] at h
      split at h
      · split at h <;> cases h
      · cases h
    · rfl

theorem exists_else {ws : List Lexeme} (h : (Role.of ws).isElse) :
    ∃ first rest, ws = first :: rest ∧ first.kind = .keyword .else_ := by
  match ws with
  | [] => cases h
  | first :: rest =>
    refine ⟨first, rest, rfl, ?_⟩
    simp only [Role.of] at h
    split at h
    all_goals first | assumption | cases h

section Plain

theorem Inv.arrive (h : Inv config ls name k (innermost ls k) s) (layout : LaidOut ls k)
    (plain : (roleAt ls k).isElse = false) :
    ∃ t, Inv config ls name k (opener? ls k) t ∧ t.blocks.length = indent ls k ∧
      s.step config (lineAt ls k) = t.read config (number ls k) (lineAt ls k).lexemes := by
  have le := (le_length_iff h).2 layout
  have next (p : Nat) (_ : indent ls k ≤ indent ls p) : ¬ Continues ls p k := fun c => by
    simp [c.1] at plain
  obtain ⟨t, left, inv⟩ := h.leaveTo (Nat.le_refl _) next
  have innermost : ((innermost ls k).bind fun p => before ls (indent ls k) (p + 1)) =
      opener? ls k := by
    apply innermost_bind
    intro j eq
    subst eq
    exact Decidable.or_iff_not_imp_right.2 fun deeper => layout.2 (Nat.not_le.1 deeper)
  refine ⟨t, innermost ▸ inv, ?_, ?_⟩
  · rw [State.length_leaveTo left]
    exact Nat.min_eq_right le
  · rw [State.step_of_not_else le (afterElse?_eq_none plain)]
    simp only [bind, Except.bind, show s.leaveTo (lineAt ls k).indentation = .ok t from left]
    rfl

theorem Inv.step_of_plain (h : Inv config ls name k (innermost ls k) s) (lt : k < ls.length)
    (ne : (lineAt ls k).lexemes ≠ []) (plain : (roleAt ls k).isElse = false)
    (ok : s.step config (lineAt ls k) = .ok s') :
    Accepted config ls k ∧ Inv config ls name (k + 1) (innermost ls (k + 1)) s' := by
  have layout := (le_length_iff h).1 (State.le_of_step ok)
  obtain ⟨t, inv, level, eq⟩ := h.arrive layout plain
  rw [eq] at ok
  obtain ⟨hd, reads⟩ := State.reads_of_read ne ok
  rw [State.read_eq_perform reads] at ok
  rw [inv.around.setting] at reads
  have role : hd.role.isElse = false := by rw [← Says.role reads, plain]
  obtain ⟨scope, names, depth⟩ := (inv.perform_isOk_iff level reads role).1 ⟨s', ok⟩
  exact ⟨⟨layout, ⟨hd, reads⟩, by simp [plain], scope, names, depth⟩,
    inv.perform lt level reads ok⟩

theorem Inv.step_of_accepted_plain (h : Inv config ls name k (innermost ls k) s)
    (accepted : Accepted config ls k) (plain : (roleAt ls k).isElse = false) :
    ∃ s', s.step config (lineAt ls k) = .ok s' := by
  obtain ⟨t, inv, level, eq⟩ := h.arrive accepted.layout plain
  obtain ⟨hd, told⟩ := accepted.header
  have role : hd.role.isElse = false := by rw [← told.role, plain]
  have reads : hd.Reads (t.setting config) (lineAt ls k).lexemes := by
    rw [inv.around.setting]
    exact told
  rw [eq, State.read_eq_perform reads]
  exact (inv.perform_isOk_iff level told role).2 ⟨accepted.scope, accepted.names, accepted.depth⟩

end Plain

section Else

/-- What an if statement leaves to the else line that goes on with it: its arm and those
before it, inside of the blocks around the statement. -/
structure Resumable (config : Config) (ls : List Line) (k j : Nat) (arm : Arm) (arms : List Arm)
    (outer : State) : Prop where
  leaves : LeavesArm config ls j k arm
  chain : ∃ q, Chain config ls j q arms ∧
    (∀ i, q < i → i ≤ k → indent ls q < indent ls i ∨ (roleAt ls i).isElse) ∧
    Around config ls k outer.entry q (opener? ls k) outer.blocks
  level : outer.blocks.length = indent ls k

theorem Inv.resumable {arm : Arm} {arms : List Arm} {outer : State}
    (h : Inv config ls name k o t) (isElse : (roleAt ls k).isElse)
    (found : t.openArm? (indent ls k) = some (arm, arms, outer)) :
    ∃ j, o = some j ∧ (roleAt ls j).isIf ∧ outer.symbols = t.symbols ∧
      Resumable config ls k j arm arms outer := by
  obtain ⟨symbols, entry, blocks⟩ := t
  obtain ⟨le, around, -, -, -⟩ := h
  unfold State.openArm? at found
  split at found
  · next c arms' line lines outer' eq =>
    split at found
    · next level =>
      cases found
      cases eq
      cases around with
      | @block _ j q block outer lt opens number same body since chain rest =>
        cases opens with
        | if_ tests earlier =>
          have ends : indent ls j = indent ls k := same.trans level
          have reached : reached? ls k = some j := by
            refine before_eq_some.2 ⟨lt, by omega, fun q hq lt' => ?_⟩
            have := since q hq lt'
            omega
          have continues : Continues ls j k := ⟨isElse, reached, ends⟩
          refine ⟨j, rfl, ?_, rfl, ?_, ⟨q, earlier, fun i hi le' => ?_, ?_⟩, level⟩
          · rcases tests with told | told <;> rw [told.role] <;> rfl
          · refine ⟨continues, tests, ?_, number⟩
            rw [bodyOf_eq_units le lt (Nat.le_of_eq ends.symm)]
            exact body
          · rcases Nat.lt_or_eq_of_le le' with lt' | rfl
            · exact chain i hi lt'
            · exact .inr isElse
          · rw [continues.opener?]
            exact rest
    · cases found
  · cases found

theorem Resumable.resume {arm : Arm} {arms : List Arm} {outer : State} {hd : Header}
    (h : Resumable config ls k j arm arms outer) (told : Says config ls k hd)
    (isElse : (roleAt ls k).isElse) {line : Nat} : ∃ q opener, Opens config ls k q opener ∧
      (∀ i, q < i → i ≤ k → indent ls q < indent ls i ∨ (roleAt ls i).isElse) ∧
      Around config ls k outer.entry q (opener? ls k) outer.blocks ∧
      ∀ s', outer.resume config line arm arms hd = .ok s' ↔ nesting ls k < config.maxDepth ∧
        s' = { outer with blocks := ⟨opener, line, []⟩ :: outer.blocks } := by
  obtain ⟨leaves, ⟨q, chain, since, around⟩, level⟩ := h
  rw [told.role] at isElse
  cases hd with
  | elseIf c =>
    have opens : Opens config ls k q (.if_ c (arm :: arms)) :=
      .if_ (.inr told) (.elseIf told leaves chain)
    exact ⟨q, _, opens, since, around, fun s' => around.enter level opens⟩
  | else_ =>
    have opens : Opens config ls k q (.else_ arm arms) := .else_ told leaves chain
    exact ⟨q, _, opens, since, around, fun s' => around.enter level opens⟩
  | _ => cases isElse

theorem Inv.openArm? (h : Inv config ls name k (some j) t) (role : (roleAt ls j).isIf)
    (same : indent ls j = indent ls k) :
    ∃ arm arms outer, t.openArm? (indent ls k) = some (arm, arms, outer) := by
  obtain ⟨symbols, entry, blocks⟩ := t
  obtain ⟨-, around, -, -, -⟩ := h
  cases around with
  | @block _ _ q block outer _ opens _ level =>
    obtain ⟨opener, line, body⟩ := block
    have height : outer.length = indent ls k := level.symm.trans same
    cases opens with
    | if_ => exact ⟨_, _, _, if_pos height⟩
    | class_ told | function told | while_ told | for_ told | foreach told | else_ told =>
      rw [told.role] at role
      cases role

theorem Inv.arriveElse (h : Inv config ls name k (innermost ls k) s) :
    ∃ t, s.leaveTo (indent ls k + 1) = .ok t ∧ Inv config ls name k
      ((innermost ls k).bind fun p => before ls (indent ls k + 1) (p + 1)) t :=
  h.leaveTo (Nat.le_succ _) fun p deep c => by
    have := c.2.2
    omega

theorem Inv.step_of_else (h : Inv config ls name k (innermost ls k) s) (lt : k < ls.length)
    (isElse : (roleAt ls k).isElse) (ok : s.step config (lineAt ls k) = .ok s') :
    Accepted config ls k ∧ Inv config ls name (k + 1) (innermost ls (k + 1)) s' := by
  have le := State.le_of_step ok
  obtain ⟨first, rest, lexemes, kind⟩ := exists_else isElse
  obtain ⟨t, left, inv⟩ := h.arriveElse
  obtain ⟨arm, arms, outer, found⟩ := State.openArm?_of_step lexemes kind left ok
  obtain ⟨j, eq, isIf, symbols, resumable⟩ := inv.resumable isElse found
  rw [State.step_else le lexemes kind left found] at ok
  obtain ⟨hd, reads⟩ := State.reads_of_otherwise kind ok
  rw [State.otherwise_eq_resume kind reads] at ok
  obtain ⟨-, -, around⟩ := resumable.chain.choose_spec
  rw [around.setting, ← lexemes] at reads
  obtain ⟨q, opener, opens, since, around, resumes⟩ := resumable.resume reads isElse
  obtain ⟨room, rfl⟩ := (resumes s').1 ok
  have continues := resumable.leaves.continues
  have declares := Role.declares_of_isElse isElse
  have block := Role.opensBlock_of_isElse isElse
  refine ⟨⟨(le_length_iff h).1 le, ⟨hd, reads⟩, ?_, ?_, ?_, fun _ => room⟩, ?_⟩
  · exact fun _ => ⟨j, continues.2.1, continues.2.2, isIf⟩
  · simp [Role.isUnit_of_isElse isElse]
  · exact .of_not_declares declares
  · rw [eq] at inv
    have isFunction : roleAt ls j ≠ .function := fun role => by simp [role, Role.isIf] at isIf
    have table := inv.table.leave isFunction
    rw [← continues.opener?, ← symbols] at table
    refine inv.opened lt around resumable.level opens since block (by simp [declares]) ?_
    apply table.advance_of_not_declares declares h.named
    intro p mem
    rw [openers_some]
    exact List.mem_cons_of_mem _ mem

theorem Inv.step_of_accepted_else (h : Inv config ls name k (innermost ls k) s)
    (accepted : Accepted config ls k) (isElse : (roleAt ls k).isElse) :
    ∃ s', s.step config (lineAt ls k) = .ok s' := by
  have le := (le_length_iff h).2 accepted.layout
  obtain ⟨first, rest, lexemes, kind⟩ := exists_else isElse
  obtain ⟨t, left, inv⟩ := h.arriveElse
  obtain ⟨j, reached, same, isIf⟩ := accepted.otherwise isElse
  have innermost : ((innermost ls k).bind fun p => before ls (indent ls k + 1) (p + 1)) =
      some j := by
    rw [innermost_bind, ← reached]
    · rfl
    · intro i eq
      obtain ⟨lt, -, last⟩ := before_eq_some.1 reached
      by_cases eq' : j = i
      · refine .inl ?_
        rw [← eq']
        exact Role.opensBlock_of_isIf isIf
      · exact .inr (last i (by omega) (by omega))
  rw [innermost] at inv
  obtain ⟨arm, arms, outer, found⟩ := inv.openArm? isIf same
  obtain ⟨j', -, -, -, resumable⟩ := inv.resumable isElse found
  obtain ⟨hd, told⟩ := accepted.header
  obtain ⟨q, opener, -, -, around, resumes⟩ := resumable.resume told isElse
  have block := Role.opensBlock_of_isElse isElse
  have reads : hd.Reads (outer.setting config) (first :: rest) := by
    rw [around.setting, ← lexemes]
    exact told
  rw [State.step_else le lexemes kind left found, State.otherwise_eq_resume kind reads]
  exact ⟨_, (resumes _).2 ⟨accepted.depth block, rfl⟩⟩

end Else

/-- A line is read if and only if it is accepted. -/
theorem Inv.step_isOk_iff (h : Inv config ls name k (innermost ls k) s) (lt : k < ls.length)
    (ne : (lineAt ls k).lexemes ≠ []) :
    (∃ s', s.step config (lineAt ls k) = .ok s') ↔ Accepted config ls k := by
  cases isElse : (roleAt ls k).isElse with
  | true =>
    exact ⟨fun ⟨_, ok⟩ => (h.step_of_else lt isElse ok).1,
      fun accepted => h.step_of_accepted_else accepted isElse⟩
  | false =>
    exact ⟨fun ⟨_, ok⟩ => (h.step_of_plain lt ne isElse ok).1,
      fun accepted => h.step_of_accepted_plain accepted isElse⟩

theorem Inv.step (h : Inv config ls name k (innermost ls k) s) (lt : k < ls.length)
    (ne : (lineAt ls k).lexemes ≠ []) (ok : s.step config (lineAt ls k) = .ok s') :
    Inv config ls name (k + 1) (innermost ls (k + 1)) s' := by
  cases isElse : (roleAt ls k).isElse with
  | true => exact (h.step_of_else lt isElse ok).2
  | false => exact (h.step_of_plain lt ne isElse ok).2

end Offside.Module
