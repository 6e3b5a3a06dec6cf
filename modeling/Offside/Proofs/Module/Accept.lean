import Offside.Proofs.Module.Declare
import Offside.Proofs.Module.Reading

/-!
Which lines are accepted. Six conditions are laid down for each line, by position. A line
is read if and only if they hold of it, and then the invariant holds after it.
-/

namespace Offside.Module

variable (config : Config) (ls : List Line)

/-- The first line is not indented, and no line is more than one level deeper than the one
before it, or deeper at all unless that one opens a block. -/
def LaidOut : Nat → Prop
  | 0 => indent ls 0 = 0
  | i + 1 => indent ls (i + 1) ≤ indent ls i + 1 ∧
      (indent ls i < indent ls (i + 1) → (roleAt ls i).opensBlock)

/-- What has to hold of the line at a position. -/
structure Accepted (i : Nat) : Prop where
  layout : LaidOut ls i
  header : ∃ h, Says config ls i h
  otherwise : (roleAt ls i).isElse → ∃ j, reached? ls i = some j ∧ indent ls j = indent ls i ∧
    (roleAt ls j).isIf
  scope : (roleAt ls i).isUnit → ∀ j, declarer? ls i = some j → roleAt ls j ≠ .class_
  names : DeclaresNew ls i
  depth : (roleAt ls i).opensBlock → nesting ls i < config.maxDepth

/-- The line whose block is the innermost one before position `k` is read. -/
def innermost : Nat → Option Nat
  | 0 => none
  | k + 1 => if (roleAt ls k).opensBlock then some k else opener? ls k

variable {config ls} {name : String} {k b q d i : Nat} {o : Option Nat} {s s' : State}
  {entry : List Stmt} {opener : Opener}

theorem innermost_of_opens (h : (roleAt ls k).opensBlock) : innermost ls (k + 1) = some k :=
  if_pos h

theorem innermost_of_not_opens (h : (roleAt ls k).opensBlock = false) :
    innermost ls (k + 1) = opener? ls k := by
  rw [innermost, h]
  rfl

section Views

theorem Around.setting (h : Around config ls k entry b (opener? ls i) s.blocks) :
    s.setting config = settingAt config ls i := by
  rw [State.setting, State.inClass, h.any_isClass, ← enclosing_eq]
  rfl

theorem Around.scope (h : Around config ls k entry b (opener? ls i) s.blocks) :
    s.scope = scopeAt ls i := by
  rw [State.scope, h.findSome?_scope?, ← enclosing_eq, scopeAt, declarer?]
  cases (enclosing ls i).find? fun p => (roleAt ls p).declares <;> rfl

theorem Around.directlyInClass (h : Around config ls k entry b (opener? ls i) s.blocks) :
    s.directlyInClass = false ↔ ∀ j, declarer? ls i = some j → roleAt ls j ≠ .class_ := by
  rw [State.directlyInClass, h.find?_scope?_isClass, ← enclosing_eq, declarer?]
  cases (enclosing ls i).find? fun p => (roleAt ls p).declares <;> simp

theorem enter_eq_ok {maxDepth line : Nat} : s.enter maxDepth opener line = .ok s' ↔
    s.blocks.length + s.links + opener.links < maxDepth ∧
      s' = { s with blocks := ⟨opener, line, []⟩ :: s.blocks } := by
  unfold State.enter
  split
  · next deep => simp [Nat.not_lt.2 deep]
  · next shallow => simp [Nat.not_le.1 shallow, eq_comm]

theorem Around.enter (h : Around config ls k entry b (opener? ls i) s.blocks)
    (level : s.blocks.length = indent ls i) (opens : Opens config ls i q opener) {line : Nat} :
    s.enter config.maxDepth opener line = .ok s' ↔ nesting ls i < config.maxDepth ∧
      s' = { s with blocks := ⟨opener, line, []⟩ :: s.blocks } := by
  have total : s.blocks.length + s.links + opener.links = nesting ls i := by
    rw [nesting, openers_some, List.foldr_cons, ← opens.links, State.links,
      h.foldr_links, level]
    omega
  rw [enter_eq_ok, total]

end Views

section Layout

theorem le_length_iff (h : Inv config ls name k (innermost ls k) s) :
    indent ls k ≤ s.blocks.length ↔ LaidOut ls k := by
  rw [h.around.length]
  cases k with
  | zero => exact Nat.le_zero
  | succ j =>
    have level := h.levels j (Nat.lt_succ_self j)
    cases opens : (roleAt ls j).opensBlock with
    | true => simp [innermost_of_opens opens, LaidOut, opens]
    | false =>
      rw [innermost_of_not_opens opens, ← level, LaidOut, opens]
      simp only [Bool.false_eq_true, imp_false, Nat.not_lt]
      omega

theorem innermost_bind (h : ∀ j, k = j + 1 → (roleAt ls j).opensBlock ∨ d ≤ indent ls j) :
    ((innermost ls k).bind fun p => before ls d (p + 1)) = before ls d k := by
  cases k with
  | zero => rfl
  | succ j =>
    cases opens : (roleAt ls j).opensBlock with
    | true => rw [innermost_of_opens opens, Option.bind_some]
    | false =>
      have deep := (h j rfl).resolve_left (by simp [opens])
      rw [innermost_of_not_opens opens, ← before_opener? deep]
      exact (before_skip (Nat.le_succ j) fun q le lt => by rwa [show q = j by omega]).symm

end Layout

section Reading

theorem Around.open {outer : List Block} (h : Around config ls k entry q (opener? ls k) outer)
    (level : outer.length = indent ls k) (opens : Opens config ls k q opener)
    (chain : ∀ i, q < i → i ≤ k → indent ls q < indent ls i ∨ (roleAt ls i).isElse) :
    Around config ls (k + 1) entry (k + 1) (some k) (⟨opener, number ls k, []⟩ :: outer) := by
  refine .block (Nat.lt_succ_self k) opens rfl level.symm ?_ (fun i _ _ => by omega) ?_ ?_
  · rw [units_eq_nil (Nat.le_refl _)]
    exact .nil
  · exact fun i less lt => chain i less (Nat.lt_succ_iff.1 lt)
  · apply h.advance
    intro p mem
    rw [← enclosing_eq, mem_enclosing] at mem
    exact mem.2 k mem.1 (Nat.le_refl k)

theorem Inv.opened {t : SymbolTree} (h : Inv config ls name k o s) (lt : k < ls.length)
    {outer : State} (around : Around config ls k outer.entry q (opener? ls k) outer.blocks)
    (level : outer.blocks.length = indent ls k) (opens : Opens config ls k q opener)
    (chain : ∀ i, q < i → i ≤ k → indent ls q < indent ls i ∨ (roleAt ls i).isElse)
    (block : (roleAt ls k).opensBlock) (own : (roleAt ls k).declares → names ls k ≠ [])
    (table : Table config ls name (k + 1) (some k) t) :
    Inv config ls name (k + 1) (innermost ls (k + 1))
      ⟨t, outer.entry, ⟨opener, number ls k, []⟩ :: outer.blocks⟩ := by
  rw [innermost_of_opens block]
  refine ⟨lt, around.open level opens chain, table, fun i hi => ?_, fun i hi => ?_⟩
  · rcases Nat.lt_succ_iff_lt_or_eq.1 hi with hi | rfl
    · exact h.named i hi
    · exact own
  · rcases Nat.lt_succ_iff_lt_or_eq.1 hi with hi | rfl
    · exact h.levels i hi
    · rw [← level, around.length]

theorem Inv.added {stmt : Stmt} (h : Inv config ls name k (opener? ls k) s)
    (lt : k < ls.length) (level : s.blocks.length = indent ls k)
    (yields : Yields config ls k stmt) (unit : (roleAt ls k).isUnit)
    (block : (roleAt ls k).opensBlock = false) (role : (roleAt ls k).declares = false) :
    Inv config ls name (k + 1) (innermost ls (k + 1)) (s.add stmt) := by
  rw [innermost_of_not_opens block]
  have added := h.around.add yields (units_succ_of_unit unit rfl)
  refine ⟨lt, added.advance fun p mem => ?_, ?_, fun i hi => ?_, fun i hi => ?_⟩
  · rw [← enclosing_eq, mem_enclosing] at mem
    exact mem.2 k mem.1 (Nat.le_refl k)
  · rw [symbols_add]
    exact h.table.advance_of_not_declares role h.named fun _ mem => mem
  · rcases Nat.lt_succ_iff_lt_or_eq.1 hi with hi | rfl
    · exact h.named i hi
    · simp [role]
  · rcases Nat.lt_succ_iff_lt_or_eq.1 hi with hi | rfl
    · exact h.levels i hi
    · rw [← level, h.around.length]

theorem DeclaresNew.of_not_declares (h : (roleAt ls i).declares = false) : DeclaresNew ls i := by
  have none := names_eq_nil h
  refine ⟨by simp [none], fun x j eq => ?_, fun x j eq => ?_⟩ <;> simp [none] at eq

variable {hd : Header} {line : Nat} {stmt : Stmt}

theorem Says.opens (told : Says config ls k hd) (h : hd.opener? = some opener) :
    Opens config ls k k opener ∧ (roleAt ls k).isUnit ∧ (roleAt ls k).opensBlock ∧
      (roleAt ls k).declares = false := by
  rw [told.role]
  cases hd <;> cases h
  · exact ⟨.if_ (.inl told) (.if_ told.role), rfl, rfl, rfl⟩
  · exact ⟨.while_ told, rfl, rfl, rfl⟩
  · exact ⟨.for_ told, rfl, rfl, rfl⟩
  · exact ⟨.foreach told, rfl, rfl, rfl⟩

theorem Says.yields (told : Says config ls k hd) (h : hd.leaf? (number ls k) = some stmt) :
    Yields config ls k stmt ∧ (roleAt ls k).isUnit ∧ (roleAt ls k).opensBlock = false ∧
      (roleAt ls k).declares = false := by
  rw [told.role]
  cases hd <;> cases h
  · exact ⟨.return_ told, rfl, rfl, rfl⟩
  · exact ⟨.expression told, rfl, rfl, rfl⟩

section Declares

variable {x : String} {arguments : List String} {kind : SymbolKind} (make : Nat → Opener)

theorem Inv.declares_isOk_iff (h : Inv config ls name k (opener? ls k) s)
    (level : s.blocks.length = indent ls k) (eq : names ls k = x :: arguments)
    (opens : Opens config ls k k (make (symbolAt ls k))) :
    (∃ s' u id v, s.symbols.declare s.scope x kind = .ok (u, id) ∧
      State.declareArguments id arguments u = .ok v ∧
      { s with symbols := v }.enter config.maxDepth (make id) line = .ok s') ↔
      DeclaresNew ls k ∧ nesting ls k < config.maxDepth := by
  rw [h.around.scope, ← h.table.declares_isOk_iff kind h.named eq]
  constructor
  · rintro ⟨s', u, id, v, hu, hv, enters⟩
    refine ⟨⟨u, id, v, hu, hv⟩, ?_⟩
    rw [(SymbolTree.size_declare hu).1, h.table.length] at enters
    have around : Around config ls k s.entry k (opener? ls k) { s with symbols := v }.blocks :=
      h.around
    exact ((around.enter level opens).1 enters).1
  · rintro ⟨⟨u, id, v, hu, hv⟩, room⟩
    have around : Around config ls k s.entry k (opener? ls k) { s with symbols := v }.blocks :=
      h.around
    have enters : { s with symbols := v }.enter config.maxDepth (make (symbolAt ls k)) line =
        .ok _ := (around.enter level opens).2 ⟨room, rfl⟩
    rw [← h.table.length, ← (SymbolTree.size_declare hu).1] at enters
    exact ⟨_, u, id, v, hu, hv, enters⟩

theorem Inv.declared (h : Inv config ls name k (opener? ls k) s) (lt : k < ls.length)
    (level : s.blocks.length = indent ls k) (eq : names ls k = x :: arguments)
    (opens : Opens config ls k k (make (symbolAt ls k))) (hkind : kind = (roleAt ls k).kind)
    (block : (roleAt ls k).opensBlock) {u v : SymbolTree} {id : Nat}
    (hu : s.symbols.declare s.scope x kind = .ok (u, id))
    (hv : State.declareArguments id arguments u = .ok v)
    (enters : { s with symbols := v }.enter config.maxDepth (make id) (number ls k) = .ok s') :
    Inv config ls name (k + 1) (innermost ls (k + 1)) s' := by
  rw [h.around.scope] at hu
  obtain ⟨rfl, table⟩ := h.table.declares h.named eq hkind hu hv fun p mem => by
    rw [openers_some]
    exact List.mem_cons_of_mem _ mem
  obtain ⟨-, rfl⟩ := enter_eq_ok.1 enters
  exact h.opened lt h.around level opens (fun i _ _ => by omega) block (by simp [eq]) table

end Declares

/-- What a line says can be done if and only if its place, its names and its depth allow it. -/
theorem Inv.perform_isOk_iff (h : Inv config ls name k (opener? ls k) s)
    (level : s.blocks.length = indent ls k) (told : Says config ls k hd)
    (plain : hd.role.isElse = false) :
    (∃ s', s.perform config (number ls k) hd = .ok s') ↔
      ((roleAt ls k).isUnit → ∀ j, declarer? ls k = some j → roleAt ls j ≠ .class_) ∧
      DeclaresNew ls k ∧ ((roleAt ls k).opensBlock → nesting ls k < config.maxDepth) := by
  rw [← h.around.directlyInClass]
  cases hopener : hd.opener? with
  | some opener =>
    obtain ⟨opens, unit, block, role⟩ := told.opens hopener
    simp only [State.perform_opener hopener, h.around.enter level opens, unit, block,
      DeclaresNew.of_not_declares role, forall_const, true_and, exists_and_left, exists_eq,
      and_true]
  | none =>
    cases hleaf : hd.leaf? (number ls k) with
    | some stmt =>
      obtain ⟨-, unit, block, role⟩ := told.yields hleaf
      simp [State.perform_leaf hleaf, unit, block, DeclaresNew.of_not_declares role]
    | none =>
      cases hd with
      | class_ x =>
        simp only [State.perform_class]
        rw [h.declares_isOk_iff .class_ level (names_class told) (.class_ told)]
        simp [told.role, Header.role, Role.isUnit, Role.opensBlock]
      | function x arguments =>
        simp only [State.perform_function]
        rw [h.declares_isOk_iff (.function · arguments) level (names_function told)
          (.function told)]
        simp [told.role, Header.role, Role.isUnit, Role.opensBlock]
      | elseIf | else_ => cases plain
      | if_ | while_ | for_ | foreach => cases hopener
      | return_ | expression => cases hleaf

theorem Inv.perform (h : Inv config ls name k (opener? ls k) s) (lt : k < ls.length)
    (level : s.blocks.length = indent ls k) (told : Says config ls k hd)
    (ok : s.perform config (number ls k) hd = .ok s') :
    Inv config ls name (k + 1) (innermost ls (k + 1)) s' := by
  cases hopener : hd.opener? with
  | some opener =>
    obtain ⟨opens, unit, block, role⟩ := told.opens hopener
    obtain ⟨-, enters⟩ := (State.perform_opener hopener).1 ok
    obtain ⟨-, rfl⟩ := enter_eq_ok.1 enters
    refine h.opened lt h.around level opens (fun i _ _ => by omega) block (by simp [role]) ?_
    apply h.table.advance_of_not_declares role h.named
    intro p mem
    rw [openers_some]
    exact List.mem_cons_of_mem _ mem
  | none =>
    cases hleaf : hd.leaf? (number ls k) with
    | some stmt =>
      obtain ⟨yields, unit, block, role⟩ := told.yields hleaf
      obtain ⟨-, rfl⟩ := (State.perform_leaf hleaf).1 ok
      exact h.added lt level yields unit block role
    | none =>
      cases hd with
      | class_ x =>
        obtain ⟨u, id, v, hu, hv, enters⟩ := State.perform_class.1 ok
        exact h.declared .class_ lt level (names_class told) (.class_ told)
          (by rw [told.role]; rfl) (by rw [told.role]; rfl) hu hv enters
      | function x arguments =>
        obtain ⟨u, id, v, hu, hv, enters⟩ := State.perform_function.1 ok
        exact h.declared (.function · arguments) lt level (names_function told)
          (.function told) (by rw [told.role]; rfl) (by rw [told.role]; rfl) hu hv enters
      | elseIf | else_ => cases ok
      | if_ | while_ | for_ | foreach => cases hopener
      | return_ | expression => cases hleaf

end Reading

end Offside.Module
