import Offside.Proofs.Module.Step

/-!
Whole modules. The lines are read if and only if each of them is accepted; the invariant
then holds behind the last one, where all blocks end, so that nothing can fail any more.
-/

namespace Offside.Module

variable {config : Config} {ls : List Line} {name : String} {k i : Nat} {s : State}
  {t : SymbolTree}

theorem Inv.start (config : Config) (ls : List Line) (name : String) :
    Inv config ls name 0 none (.start name) where
  le := Nat.zero_le _
  around := .entry .nil
  table := ⟨.new name, rfl, fun p lt => absurd lt (Nat.not_lt_zero p)⟩
  named i lt := absurd lt (Nat.not_lt_zero i)
  levels i lt := absurd lt (Nat.not_lt_zero i)

theorem lineAt_eq_getElem (lt : k < ls.length) : lineAt ls k = ls[k] := by
  simp [lineAt, lt]

theorem lineAt_length (ls : List Line) : lineAt ls ls.length = ⟨0, 0, []⟩ := by
  simp [lineAt]

theorem take_succ_lines (lt : k < ls.length) :
    ls.take (k + 1) = ls.take k ++ [lineAt ls k] := by
  rw [List.take_succ_eq_append_getElem lt, lineAt_eq_getElem lt]

theorem lexemes_ne_nil (h : ∀ l, l ∈ ls → l.lexemes ≠ []) (lt : k < ls.length) :
    (lineAt ls k).lexemes ≠ [] := by
  rw [lineAt_eq_getElem lt]
  exact h _ (List.getElem_mem lt)

theorem readAll_singleton (s : State) (l : Line) :
    s.readAll config [l] = atLine l.number (s.step config l) := by
  rw [State.readAll, List.foldlM_cons]
  cases atLine l.number (s.step config l) <;> rfl

theorem readAll_take (config : Config) (name : String) (h : ∀ l, l ∈ ls → l.lexemes ≠ [])
    (le : k ≤ ls.length) :
    ((∃ s, (State.start name).readAll config (ls.take k) = .ok s) ↔
      ∀ i, i < k → Accepted config ls i) ∧
    ∀ s, (State.start name).readAll config (ls.take k) = .ok s →
      Inv config ls name k (innermost ls k) s := by
  induction k with
  | zero =>
    refine ⟨⟨fun _ i lt => absurd lt (Nat.not_lt_zero i), fun _ => ⟨_, rfl⟩⟩, fun s read => ?_⟩
    cases read
    exact .start config ls name
  | succ k ih =>
    obtain ⟨accepted, inv⟩ := ih (Nat.le_of_lt le)
    have ne := lexemes_ne_nil h le
    have last (s' : State) : (State.start name).readAll config (ls.take (k + 1)) = .ok s' ↔
        ∃ s, (State.start name).readAll config (ls.take k) = .ok s ∧
          s.step config (lineAt ls k) = .ok s' := by
      rw [take_succ_lines le, State.readAll_append, bind_eq_ok]
      simp only [readAll_singleton, atLine_eq_ok]
    constructor
    · constructor
      · rintro ⟨s', read⟩ i lt
        obtain ⟨s, before, step⟩ := (last s').1 read
        rcases Nat.lt_succ_iff_lt_or_eq.1 lt with lt | rfl
        · exact accepted.1 ⟨s, before⟩ i lt
        · exact ((inv s before).step_isOk_iff le ne).1 ⟨s', step⟩
      · intro all
        obtain ⟨s, before⟩ := accepted.2 fun i lt => all i (Nat.lt_succ_of_lt lt)
        obtain ⟨s', step⟩ := ((inv s before).step_isOk_iff le ne).2 (all k (Nat.lt_succ_self k))
        exact ⟨s', (last s').2 ⟨s, before, step⟩⟩
    · intro s' read
      obtain ⟨s, before, step⟩ := (last s').1 read
      exact (inv s before).step le ne step

/-- The symbols of a whole module: every function has the body that its lines yield. -/
structure Finished (config : Config) (ls : List Line) (name : String) (t : SymbolTree) :
    Prop where
  wellFormed : t.WellFormed
  declarations : t.declarations = declarations ls name ls.length
  entry : ∃ f, t.function? SymbolTree.root = some f ∧ f.arguments = [] ∧
    YieldsAll config ls (bodyOf ls none) f.body
  functions : ∀ p, p < ls.length → roleAt ls p = .function →
    ∃ f, t.function? (symbolAt ls p) = some f ∧ f.arguments = (names ls p).tail ∧
      YieldsAll config ls (bodyOf ls (some p)) f.body

theorem Inv.done (h : Inv config ls name ls.length (innermost ls ls.length) s) :
    ∃ t, s.done = .ok t ∧ Finished config ls name t := by
  have last := lineAt_length ls
  have flat : indent ls ls.length ≤ 0 := by simp [indent, last]
  have next (p : Nat) : ¬ Continues ls p ls.length := fun c => by
    have isElse := c.1
    simp [roleAt, last, Role.of, Role.isElse] at isElse
  obtain ⟨⟨symbols, entry, blocks⟩, left, inv⟩ := h.leaveTo flat fun p _ => next p
  have outside : ((innermost ls ls.length).bind fun p => before ls 0 (p + 1)) = none := by
    cases innermost ls ls.length with
    | none => rfl
    | some p => exact before_eq_none.2 fun q _ => Nat.zero_le _
  rw [outside] at inv
  obtain ⟨-, around, table, -, -⟩ := inv
  cases around with
  | entry body =>
    obtain ⟨_, root⟩ := table.wellFormed.root
    obtain ⟨t, ht⟩ := table.wellFormed.setFunction_isOk ⟨[], entry.reverse⟩ root rfl
    refine ⟨t, ?_, table.wellFormed.setFunction ht, ?_, ?_, fun p lt role => ?_⟩
    · rw [State.done, left]
      exact ht
    · rw [SymbolTree.declarations_setFunction ht, table.declarations]
    · rw [SymbolTree.function?_setFunction ht]
      exact ⟨_, if_pos rfl, rfl, body⟩
    · have ne : symbolAt ls p ≠ SymbolTree.root := Nat.ne_of_gt (symbolAt_pos p)
      rw [SymbolTree.function?_setFunction ht, if_neg ne]
      exact table.bodies p lt role (by simp)

theorem symbolsOf_eq_ok (h : ∀ l, l ∈ ls → l.lexemes ≠ [])
    (ok : symbolsOf config name ls = .ok t) :
    (∀ i, i < ls.length → Accepted config ls i) ∧ Finished config ls name t := by
  obtain ⟨s, read, done⟩ := bind_eq_ok.1 ok
  rw [← List.take_length (l := ls)] at read
  obtain ⟨accepted, inv⟩ := readAll_take config name h (Nat.le_refl _)
  obtain ⟨u, hu, finished⟩ := (inv s read).done
  cases (atLine_eq_ok.1 done).symm.trans hu
  exact ⟨accepted.1 ⟨s, read⟩, finished⟩

/-- A module is accepted if and only if each of its lines is: each is laid out, has a header,
goes on with an if line if it is an else line, is no statement directly in a class, declares
new names only, and is not nested too deep. -/
theorem symbolsOf_isOk_iff (config : Config) (name : String) (ls : List Line)
    (h : ∀ l, l ∈ ls → l.lexemes ≠ []) :
    (∃ t, symbolsOf config name ls = .ok t) ↔ ∀ i, i < ls.length → Accepted config ls i := by
  refine ⟨fun ⟨t, ok⟩ => (symbolsOf_eq_ok h ok).1, fun all => ?_⟩
  obtain ⟨accepted, inv⟩ := readAll_take config name h (Nat.le_refl _)
  obtain ⟨s, read⟩ := accepted.2 all
  obtain ⟨t, done, -⟩ := (inv s read).done
  rw [List.take_length] at read
  exact ⟨t, bind_eq_ok.2 ⟨s, read, atLine_eq_ok.2 done⟩⟩

theorem symbolsOf_isOk_function :
    let ls : List Line := [⟨1, 0, [⟨.keyword .function, none⟩, .ofWord "f"]⟩,
      ⟨2, 1, [⟨.keyword .return_, none⟩]⟩]
    (∀ l, l ∈ ls → l.lexemes ≠ []) ∧ ∀ i, i < 2 → Accepted {} ls i := by
  intro ls
  have nonempty : ∀ l, l ∈ ls → l.lexemes ≠ [] := by decide
  exact ⟨nonempty, (symbolsOf_isOk_iff {} "m" ls nonempty).1 ⟨_, rfl⟩⟩

end Offside.Module
