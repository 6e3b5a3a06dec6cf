import Offside.Proofs.Module.Run

/-!
Every line of an accepted module is accounted for: a class or a function by one symbol, any
other line by one statement in the body where its indentation puts it, an else line by what
it adds to the if statement before it. Nothing else comes into the symbols.
-/

namespace Offside.Module

/-- A statement has what its line tells and, as its body, the statements that the line
opens; an if statement has the else line behind it, in which an else-if line stands alone. -/
def Fits (config : Config) (ls : List Line) (unit : Nat → Stmt) (i : Nat) : Stmt → Prop
  | .expr e _ => Says config ls i (.expression e)
  | .return_ e _ => Says config ls i (.return_ e)
  | .while_ c body _ => Says config ls i (.while_ c) ∧ body = (bodyOf ls (some i)).map unit
  | .for_ init c step body _ => Says config ls i (.for_ init c step) ∧
      body = (bodyOf ls (some i)).map unit
  | .foreach item c body _ => Says config ls i (.foreach item c) ∧
      body = (bodyOf ls (some i)).map unit
  | .if_ c body _ => Tests config ls i c ∧ (∀ j, ¬ Continues ls i j) ∧
      body = (bodyOf ls (some i)).map unit
  | .ifElse c body otherwise _ => Tests config ls i c ∧ body = (bodyOf ls (some i)).map unit ∧
      ∃ j, Continues ls i j ∧ (roleAt ls j = .elseIf ∧ otherwise = [unit j] ∨
        roleAt ls j = .else_ ∧ otherwise = (bodyOf ls (some j)).map unit)

/-- Where each line is found in the symbols; `unit` gives the statement of a line. -/
structure Accounts (config : Config) (ls : List Line) (t : SymbolTree) (unit : Nat → Stmt) :
    Prop where
  symbol : ∀ i, i < ls.length → (roleAt ls i).declares → ∃ s, t.get? (symbolAt ls i) = some s ∧
    s.kind = (roleAt ls i).kind ∧ s.parent = some (scopeAt ls i) ∧
    (names ls i).head? = some s.name
  symbol_inj : ∀ i j, i < ls.length → j < ls.length → (roleAt ls i).declares →
    (roleAt ls j).declares → symbolAt ls i = symbolAt ls j → i = j
  line : ∀ id s, t.get? id = some s → id ≠ SymbolTree.root → s.kind ≠ .variable_ →
    ∃ i, i < ls.length ∧ (roleAt ls i).declares ∧ symbolAt ls i = id
  entry : t.function? SymbolTree.root = some ⟨[], (bodyOf ls none).map unit⟩
  function : ∀ i, i < ls.length → roleAt ls i = .function → t.function? (symbolAt ls i) =
    some ⟨(names ls i).tail, (bodyOf ls (some i)).map unit⟩
  statement : ∀ i, i < ls.length → (roleAt ls i).isUnit ∨ roleAt ls i = .elseIf →
    (unit i).line = number ls i ∧ Fits config ls unit i (unit i)
  placed : ∀ i, i < ls.length → (roleAt ls i).isUnit → ∀ j, opener? ls i = some j →
    (roleAt ls j).hasBody
  continued : ∀ j, j < ls.length → (roleAt ls j).isElse → ∃ i, (roleAt ls i).isIf ∧
    Continues ls i j

variable {config : Config} {ls : List Line} {name : String} {i j k : Nat} {s : Stmt}
  {t : SymbolTree}

section Symbols

theorem Says.named {h : Header} (told : Says config ls i h) (declares : (roleAt ls i).declares) :
    names ls i ≠ [] := by
  cases h with
  | class_ => simp [names_class told]
  | function => simp [names_function told]
  | _ => rw [told.role] at declares; cases declares

theorem declarations_eq_symbolAt {id : Nat} {d : Declaration}
    (h : (declarations ls name k)[id]? = some d) (root : id ≠ SymbolTree.root)
    (kind : d.kind ≠ .variable_) : ∃ i, i < k ∧ names ls i ≠ [] ∧ symbolAt ls i = id := by
  induction k with
  | zero =>
    obtain ⟨lt, -⟩ := List.getElem?_eq_some_iff.1 h
    exact absurd (Nat.lt_one_iff.1 lt) root
  | succ k ih =>
    rw [declarations_succ, List.getElem?_append, length_declarations] at h
    split at h
    · obtain ⟨i, lt, named, eq⟩ := ih h
      exact ⟨i, Nat.lt_succ_of_lt lt, named, eq⟩
    · next ge =>
      unfold declared at h
      split at h
      · simp at h
      · next x arguments named =>
        cases m : id - symbolAt ls k with
        | zero => exact ⟨k, Nat.lt_succ_self k, by simp [named], by omega⟩
        | succ m =>
          rw [m, List.getElem?_cons_succ] at h
          obtain ⟨y, -, rfl⟩ := List.mem_map.1 (List.mem_of_getElem? h)
          exact absurd rfl kind

end Symbols

section Statements

theorem Yields.fits {unit : Nat → Stmt} (unique : ∀ i s, Yields config ls i s → s = unit i)
    (h : Yields config ls i s) : Fits config ls unit i s := by
  cases h with
  | expression told => exact told
  | return_ told => exact told
  | while_ told body => exact ⟨told, body.eq_map unique⟩
  | for_ told body => exact ⟨told, body.eq_map unique⟩
  | foreach told body => exact ⟨told, body.eq_map unique⟩
  | if_ tests last body => exact ⟨tests, last, body.eq_map unique⟩
  | ifElse tests continues body otherwise =>
    refine ⟨tests, body.eq_map unique, _, continues, ?_⟩
    cases otherwise with
    | elseIf told one => exact .inl ⟨told.role, by rw [unique _ _ one]⟩
    | else_ told all => exact .inr ⟨told.role, all.eq_map unique⟩

theorem Yields.body (h : Yields config ls i s) (block : (roleAt ls i).opensBlock) :
    ∃ body, YieldsAll config ls (bodyOf ls (some i)) body := by
  cases h with
  | expression told | return_ told => rw [told.role] at block; cases block
  | while_ _ body | for_ _ body | foreach _ body | if_ _ _ body | ifElse _ _ body =>
    exact ⟨_, body⟩

theorem Yields.yieldsElse (h : Yields config ls i s) (role : (roleAt ls i).isIf)
    (continues : Continues ls i j) : ∃ otherwise, YieldsElse config ls j otherwise := by
  cases h with
  | expression told | return_ told | while_ told | for_ told | foreach told =>
    rw [told.role] at role
    cases role
  | if_ _ last => exact absurd continues (last j)
  | ifElse _ continues' _ otherwise => exact continues.unique continues' ▸ ⟨_, otherwise⟩

end Statements

section Lines

variable (accepted : ∀ i, i < ls.length → Accepted config ls i)

include accepted

theorem exists_continues (lt : j < ls.length) (isElse : (roleAt ls j).isElse) :
    ∃ i, (roleAt ls i).isIf ∧ Continues ls i j := by
  obtain ⟨i, reached, same, isIf⟩ := (accepted j lt).otherwise isElse
  exact ⟨i, isIf, isElse, reached, same⟩

theorem opener?_hasBody (lt : i < ls.length) (unit : (roleAt ls i).isUnit)
    (h : opener? ls i = some j) : (roleAt ls j).hasBody := by
  obtain ⟨before, less, last⟩ := before_eq_some.1 h
  have block : (roleAt ls j).opensBlock := by
    refine (accepted (j + 1) (by omega)).layout.2 ?_
    rcases Nat.lt_or_eq_of_le before with after | rfl
    · exact Nat.lt_of_lt_of_le less (last (j + 1) (Nat.lt_succ_self j) after)
    · exact less
  have other : roleAt ls j ≠ .class_ := fun role => by
    have declarer : declarer? ls i = some j := by
      rw [declarer?, enclosing_eq, h, openers_some, List.find?_cons, role]
      rfl
    exact (accepted i lt).scope unit j declarer role
  cases role : roleAt ls j <;> simp_all [Role.opensBlock, Role.hasBody]

theorem exists_yields (finished : Finished config ls name t) (lt : i < ls.length)
    (role : (roleAt ls i).isUnit ∨ roleAt ls i = .elseIf) : ∃ s, Yields config ls i s := by
  induction i using Nat.strongRecOn with
  | ind i ih =>
    have within (j : Nat) (le : j ≤ i) (isElse : (roleAt ls j).isElse) :
        ∃ otherwise, YieldsElse config ls j otherwise := by
      obtain ⟨h, isIf, continues⟩ := exists_continues accepted (by omega) isElse
      have before : h < i := Nat.lt_of_lt_of_le continues.lt le
      obtain ⟨s, hs⟩ := ih h before (by omega) (Role.isUnit_of_isIf isIf)
      exact hs.yieldsElse isIf continues
    rcases role with unit | elseIf
    · cases hj : opener? ls i with
      | none =>
        obtain ⟨f, -, -, all⟩ := finished.entry
        exact all.yields (mem_units.2 ⟨lt, unit, hj⟩)
      | some j =>
        have before := opener?_lt hj
        have hasBody := opener?_hasBody accepted lt unit hj
        have body : ∃ body, YieldsAll config ls (bodyOf ls (some j)) body := by
          cases role : roleAt ls j with
          | function =>
            obtain ⟨f, -, -, all⟩ := finished.functions j (by omega) role
            exact ⟨_, all⟩
          | else_ =>
            obtain ⟨_, otherwise⟩ := within j (by omega) (by rw [role]; rfl)
            cases otherwise with
            | else_ _ all => exact ⟨_, all⟩
            | elseIf told => simp [told.role, Header.role] at role
          | class_ | return_ | expression => rw [role] at hasBody; cases hasBody
          | if_ | while_ | for_ | foreach | elseIf =>
            obtain ⟨s, hs⟩ := ih j before (by omega) (by rw [role]; decide)
            exact hs.body (by rw [role]; rfl)
        obtain ⟨_, all⟩ := body
        exact all.yields (mem_units.2 ⟨lt, unit, hj⟩)
    · obtain ⟨_, otherwise⟩ := within i (Nat.le_refl i) (by rw [elseIf]; rfl)
      cases otherwise with
      | else_ told => simp [told.role, Header.role] at elseIf
      | elseIf _ one => exact ⟨_, one⟩

end Lines

theorem exists_unit (config : Config) (ls : List Line) :
    ∃ unit : Nat → Stmt, ∀ i s, Yields config ls i s → s = unit i := by
  classical
  refine ⟨fun i => if h : ∃ s, Yields config ls i s then h.choose else default, fun i s hs => ?_⟩
  have known : ∃ s, Yields config ls i s := ⟨s, hs⟩
  exact (hs.unique known.choose_spec).trans (dif_pos known).symm

/-- In the symbols of an accepted module every line is accounted for, once and in its place. -/
theorem symbolsOf_accounts (config : Config) (name : String) (ls : List Line) (t : SymbolTree)
    (h : ∀ l, l ∈ ls → l.lexemes ≠ []) (ok : symbolsOf config name ls = .ok t) :
    ∃ unit, Accounts config ls t unit := by
  obtain ⟨accepted, finished⟩ := symbolsOf_eq_ok h ok
  obtain ⟨unit, unique⟩ := exists_unit config ls
  have named (i : Nat) (lt : i < ls.length) (declares : (roleAt ls i).declares) :
      names ls i ≠ [] := by
    obtain ⟨hd, told⟩ := (accepted i lt).header
    exact told.named declares
  refine ⟨unit, ?_, ?_, ?_, ?_, ?_, ?_, ?_, ?_⟩
  · intro i lt declares
    obtain ⟨x, arguments, named'⟩ := List.exists_cons_of_ne_nil (named i lt declares)
    have declared := declarations_symbolAt named' lt name
    rw [← finished.declarations, SymbolTree.declarations_getElem?] at declared
    obtain ⟨s, known, eq⟩ := Option.map_eq_some_iff.1 declared
    cases s
    cases eq
    exact ⟨_, known, rfl, rfl, by rw [named']; rfl⟩
  · intro i j hi hj di dj eq
    exact symbolAt_inj (named i hi di) (named j hj dj) eq
  · intro id s known root kind
    have declared := SymbolTree.declarations_of_get? known
    rw [finished.declarations] at declared
    obtain ⟨i, lt, named, eq⟩ := declarations_eq_symbolAt declared root kind
    refine ⟨i, lt, ?_, eq⟩
    cases declares : (roleAt ls i).declares with
    | true => rfl
    | false => exact absurd (names_eq_nil declares) named
  · obtain ⟨⟨_, body⟩, known, rfl, all⟩ := finished.entry
    rw [known, ← all.eq_map unique]
  · intro i lt role
    obtain ⟨⟨_, body⟩, known, rfl, all⟩ := finished.functions i lt role
    rw [known, ← all.eq_map unique]
  · intro i lt role
    obtain ⟨s, hs⟩ := exists_yields accepted finished lt role
    rw [← unique i s hs]
    exact ⟨hs.line, hs.fits unique⟩
  · exact fun i lt unit j => opener?_hasBody accepted lt unit
  · exact fun j => exists_continues accepted

theorem symbolsOf_accounts_function :
    let ls : List Line := [⟨1, 0, [⟨.keyword .function, none⟩, .ofWord "f"]⟩,
      ⟨2, 1, [⟨.keyword .return_, none⟩]⟩]
    (∀ l, l ∈ ls → l.lexemes ≠ []) ∧ ∃ t unit, symbolsOf {} "m" ls = .ok t ∧
      Accounts {} ls t unit := by
  intro ls
  have nonempty : ∀ l, l ∈ ls → l.lexemes ≠ [] := by decide
  obtain ⟨unit, accounts⟩ := symbolsOf_accounts {} "m" ls _ nonempty rfl
  exact ⟨nonempty, _, unit, rfl, accounts⟩

end Offside.Module
