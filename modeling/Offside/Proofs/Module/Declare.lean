import Offside.Proofs.Module.Invariant

/-!
What a line declares, against the symbols declared before it. A declaration succeeds if
its name is new in its scope: among the arguments of the line around it, and among what the
lines before it declare there.
-/

namespace Offside

namespace SymbolTree

variable {t u : SymbolTree} {scope id i : Nat} {name : String} {kind : SymbolKind}
  {arguments : List String}

theorem fresh_declare (h : t.declare scope name kind = .ok (u, id)) {p : Nat} {x : String} :
    u.Fresh p x ↔ t.Fresh p x ∧ (p = scope → x ≠ name) := by
  unfold Fresh
  rw [declarations_declare h]
  simp only [List.forall_mem_append, List.forall_mem_singleton, Option.some.injEq]
  exact and_congr_right fun _ => ⟨fun h eq => (h eq.symm).symm, fun h eq => (h eq.symm).symm⟩

theorem fresh_latest (wf : t.WellFormed) (h : t.declare scope name kind = .ok (u, id))
    (x : String) : u.Fresh t.size x := by
  have lt : scope < t.size := (wf.declare_isOk_iff.1 ⟨_, h⟩).1
  rw [fresh_declare h]
  refine ⟨fun d hd parent => ?_, fun eq => by omega⟩
  obtain ⟨i, hi⟩ := List.mem_iff_getElem?.1 hd
  exact absurd (wf.parent_lt_size hi parent) (Nat.lt_irrefl _)

end SymbolTree

namespace Module.State

open SymbolTree

variable {t u : SymbolTree} {id i : Nat} {arguments : List String}

theorem declareArguments_cons (id : Nat) (x : String) (arguments : List String)
    (t : SymbolTree) : declareArguments id (x :: arguments) t =
      t.declare id x .variable_ >>= fun r => declareArguments id arguments r.1 := by
  rw [declareArguments, List.foldlM_cons]
  cases t.declare id x .variable_ <;> rfl

theorem declareArguments_isOk_iff (wf : t.WellFormed) (lt : id < t.size) :
    (∃ u, declareArguments id arguments t = .ok u) ↔
      arguments.Nodup ∧ ∀ x ∈ arguments, t.Fresh id x := by
  induction arguments generalizing t with
  | nil => exact ⟨fun _ => by simp, fun _ => ⟨t, rfl⟩⟩
  | cons x arguments ih =>
    rw [declareArguments_cons, List.nodup_cons, List.forall_mem_cons]
    constructor
    · rintro ⟨u, hu⟩
      obtain ⟨⟨v, j⟩, hv, hu⟩ := bind_eq_ok.1 hu
      have := (size_declare hv).2
      obtain ⟨distinct, fresh⟩ := (ih (wf.declare hv) (by omega)).1 ⟨u, hu⟩
      refine ⟨⟨fun mem => ?_, distinct⟩, (wf.declare_isOk_iff.1 ⟨_, hv⟩).2, fun y hy => ?_⟩
      · exact ((fresh_declare hv).1 (fresh x mem)).2 rfl rfl
      · exact ((fresh_declare hv).1 (fresh y hy)).1
    · rintro ⟨⟨absent, distinct⟩, fresh, rest⟩
      obtain ⟨⟨v, j⟩, hv⟩ := wf.declare_isOk_iff.2 ⟨lt, fresh⟩
      have := (size_declare hv).2
      have free : ∀ y ∈ arguments, v.Fresh id y := fun y hy =>
        (fresh_declare hv).2 ⟨rest y hy, fun _ eq => absent (eq ▸ hy)⟩
      obtain ⟨u, hu⟩ := (ih (wf.declare hv) (by omega)).2 ⟨distinct, free⟩
      exact ⟨u, bind_eq_ok.2 ⟨_, hv, hu⟩⟩

theorem declareArguments_spec (wf : t.WellFormed) (h : declareArguments id arguments t = .ok u) :
    u.WellFormed ∧ t.size ≤ u.size ∧ (∀ i, i < t.size → u.function? i = t.function? i) ∧
      u.declarations = t.declarations ++ arguments.map fun x => ⟨x, .variable_, some id⟩ := by
  induction arguments generalizing t with
  | nil =>
    cases h
    exact ⟨wf, Nat.le_refl _, fun _ _ => rfl, by simp⟩
  | cons x arguments ih =>
    rw [declareArguments_cons] at h
    obtain ⟨⟨v, j⟩, hv, hu⟩ := bind_eq_ok.1 h
    have size := (size_declare hv).2
    obtain ⟨wf', le, functions, declarations⟩ := ih (wf.declare hv) hu
    refine ⟨wf', by omega, fun i lt => ?_, ?_⟩
    · rw [functions i (by omega), function?_declare hv lt]
    · rw [declarations, declarations_declare hv]
      simp

end Module.State

namespace Module

variable {config : Config} {ls : List Line} {name : String} {j k : Nat} {o : Option Nat}

structure DeclaresNew (ls : List Line) (i : Nat) : Prop where
  arguments : (names ls i).tail.Nodup
  argument : ∀ x j, (names ls i).head? = some x → declarer? ls i = some j →
    x ∉ (names ls j).tail
  earlier : ∀ x j, (names ls i).head? = some x → j < i → declarer? ls j = declarer? ls i →
    (names ls j).head? ≠ some x

theorem declarer?_lt (h : declarer? ls k = some j) : j < k ∧ (roleAt ls j).declares := by
  obtain ⟨declares, -⟩ := List.find?_eq_some_iff_append.1 h
  exact ⟨(mem_enclosing ls |>.1 (List.mem_of_find?_eq_some h)).1, declares⟩

section Named

variable (named : ∀ i, i < k → (roleAt ls i).declares → names ls i ≠ [])

include named

theorem scopeAt_lt : scopeAt ls k < symbolAt ls k := by
  unfold scopeAt
  cases h : declarer? ls k with
  | none => exact symbolAt_pos k
  | some p =>
    obtain ⟨lt, declares⟩ := declarer?_lt h
    exact symbolAt_lt (named p lt declares) lt

theorem symbolAt_eq_scopeAt (hj : names ls j ≠ []) :
    symbolAt ls j = scopeAt ls k ↔ declarer? ls k = some j := by
  unfold scopeAt
  cases h : declarer? ls k with
  | none => simpa [SymbolTree.root] using Nat.ne_of_gt (symbolAt_pos j)
  | some p =>
    obtain ⟨lt', declares⟩ := declarer?_lt h
    simp only [Option.elim_some, Option.some.injEq]
    exact ⟨fun eq => (symbolAt_inj hj (named p lt' declares) eq).symm, fun eq => eq ▸ rfl⟩

theorem scopeAt_eq_scopeAt (lt : j < k) :
    scopeAt ls j = scopeAt ls k ↔ declarer? ls j = declarer? ls k := by
  cases h : declarer? ls j with
  | none =>
    rw [scopeAt, h]
    cases h' : declarer? ls k with
    | none => simp [scopeAt, h']
    | some p => simpa [scopeAt, h', SymbolTree.root] using Nat.ne_of_lt (symbolAt_pos p)
  | some p =>
    obtain ⟨lt', declares⟩ := declarer?_lt h
    have lt'' := Nat.lt_trans lt' lt
    rw [scopeAt, h, Option.elim_some, symbolAt_eq_scopeAt named (named p lt'' declares)]
    exact eq_comm

theorem fresh_scopeAt_iff {t : SymbolTree} (table : Table config ls name k o t) (x : String) :
    t.Fresh (scopeAt ls k) x ↔
      (∀ j, declarer? ls k = some j → x ∉ (names ls j).tail) ∧
      ∀ j, j < k → declarer? ls j = declarer? ls k → (names ls j).head? ≠ some x := by
  have split : t.Fresh (scopeAt ls k) x ↔ ∀ j, j < k → ∀ d ∈ declared ls j,
      d.parent = some (scopeAt ls k) → d.name ≠ x := by
    unfold SymbolTree.Fresh
    rw [table.declarations]
    simp only [declarations, List.forall_mem_cons, List.forall_mem_flatMap, List.mem_range,
      reduceCtorEq, false_implies, true_and]
  rw [split]
  constructor
  · intro fresh
    refine ⟨fun j hj mem => ?_, fun j lt same head => ?_⟩
    · obtain ⟨lt, declares⟩ := declarer?_lt hj
      obtain ⟨y, arguments, eq⟩ := List.exists_cons_of_ne_nil (named j lt declares)
      rw [eq, List.tail_cons] at mem
      refine fresh j lt ⟨x, .variable_, some (symbolAt ls j)⟩ ?_ ?_ rfl
      · simp only [declared, eq, List.mem_cons, List.mem_map]
        exact .inr ⟨x, mem, rfl⟩
      · rw [(symbolAt_eq_scopeAt named (named j lt declares)).2 hj]
    · obtain ⟨arguments, eq⟩ := List.head?_eq_some_iff.1 head
      refine fresh j lt ⟨x, (roleAt ls j).kind, some (scopeAt ls j)⟩ ?_ ?_ rfl
      · simp [declared, eq]
      · rw [(scopeAt_eq_scopeAt named lt).2 same]
  · rintro ⟨argument, earlier⟩ j lt d mem parent rfl
    unfold declared at mem
    split at mem
    · cases mem
    · next y arguments eq =>
      rcases List.mem_cons.1 mem with rfl | mem
      · have same := (scopeAt_eq_scopeAt named lt).1 (Option.some.inj parent)
        exact earlier j lt same (by rw [eq]; rfl)
      · obtain ⟨z, hz, rfl⟩ := List.mem_map.1 mem
        have hj := (symbolAt_eq_scopeAt named (by simp [eq])).1 (Option.some.inj parent)
        exact argument j hj (by rwa [eq])

end Named

namespace Table

variable {t u : SymbolTree} {o' : Option Nat}

theorem advance (h : Table config ls name k o t) (wf : u.WellFormed)
    (declares : u.declarations = t.declarations ++ declared ls k)
    (functions : ∀ i, i < t.size → u.function? i = t.function? i)
    (named : ∀ i, i < k → (roleAt ls i).declares → names ls i ≠ [])
    (opened : roleAt ls k = .function → k ∈ openers ls o')
    (still : ∀ p, p ∈ openers ls o → p ∈ openers ls o') :
    Table config ls name (k + 1) o' u where
  wellFormed := wf
  declarations := by rw [declares, h.declarations, declarations_succ]
  bodies p lt role closed := by
    rcases Nat.lt_succ_iff_lt_or_eq.1 lt with lt | rfl
    · have size : symbolAt ls p < t.size := by
        rw [h.length]
        exact symbolAt_lt (named p lt (by rw [role]; rfl)) lt
      rw [functions _ size]
      exact h.bodies p lt role fun mem => closed (still p mem)
    · exact absurd (opened role) closed

theorem advance_of_not_declares (h : Table config ls name k o t)
    (role : (roleAt ls k).declares = false)
    (named : ∀ i, i < k → (roleAt ls i).declares → names ls i ≠ [])
    (still : ∀ p, p ∈ openers ls o → p ∈ openers ls o') :
    Table config ls name (k + 1) o' t := by
  refine h.advance h.wellFormed ?_ (fun _ _ => rfl) named ?_ still
  · simp [declared, names_eq_nil role]
  · intro isFunction
    rw [isFunction] at role
    cases role

section Declares

variable {x : String} {arguments : List String} {kind : SymbolKind} {id : Nat}

theorem declares_isOk_iff (kind : SymbolKind) (h : Table config ls name k o t)
    (named : ∀ i, i < k → (roleAt ls i).declares → names ls i ≠ [])
    (eq : names ls k = x :: arguments) :
    (∃ u id v, t.declare (scopeAt ls k) x kind = .ok (u, id) ∧
      State.declareArguments id arguments u = .ok v) ↔ DeclaresNew ls k := by
  have fresh := fresh_scopeAt_iff named h x
  constructor
  · rintro ⟨u, id, v, hu, hv⟩
    obtain ⟨rfl, size⟩ := SymbolTree.size_declare hu
    have wf := h.wellFormed.declare hu
    have distinct := (State.declareArguments_isOk_iff wf (by omega)).1 ⟨v, hv⟩
    obtain ⟨argument, earlier⟩ := fresh.1 (h.wellFormed.declare_isOk_iff.1 ⟨_, hu⟩).2
    refine ⟨by rw [eq]; exact distinct.1, fun y j hy => ?_, fun y j hy => ?_⟩
    · rw [eq] at hy
      cases hy
      exact argument j
    · rw [eq] at hy
      cases hy
      exact earlier j
  · rintro ⟨distinct, argument, earlier⟩
    have lt : scopeAt ls k < t.size := h.length ▸ scopeAt_lt named
    have free : t.Fresh (scopeAt ls k) x :=
      fresh.2 ⟨fun j => argument x j (by rw [eq]; rfl), fun j => earlier x j (by rw [eq]; rfl)⟩
    obtain ⟨⟨u, id⟩, hu⟩ := h.wellFormed.declare_isOk_iff.2 ⟨lt, free⟩
    obtain ⟨rfl, size⟩ := SymbolTree.size_declare hu
    rw [eq] at distinct
    have latest := SymbolTree.fresh_latest h.wellFormed hu
    obtain ⟨v, hv⟩ := (State.declareArguments_isOk_iff (h.wellFormed.declare hu) (by omega)).2
      ⟨distinct, fun y _ => latest y⟩
    exact ⟨u, _, v, hu, hv⟩

theorem declares (h : Table config ls name k o t)
    (named : ∀ i, i < k → (roleAt ls i).declares → names ls i ≠ [])
    (eq : names ls k = x :: arguments) (hkind : kind = (roleAt ls k).kind)
    (hu : t.declare (scopeAt ls k) x kind = .ok (u, id)) {v : SymbolTree}
    (hv : State.declareArguments id arguments u = .ok v)
    (still : ∀ p, p ∈ openers ls o → p ∈ openers ls (some k)) :
    id = symbolAt ls k ∧ Table config ls name (k + 1) (some k) v := by
  obtain ⟨rfl, size⟩ := SymbolTree.size_declare hu
  obtain ⟨wf, -, functions, declarations⟩ :=
    State.declareArguments_spec (h.wellFormed.declare hu) hv
  refine ⟨h.length, h.advance wf ?_ ?_ named ?_ still⟩
  · rw [declarations, SymbolTree.declarations_declare hu, hkind, h.length]
    simp [declared, eq]
  · intro i lt
    rw [functions i (by omega), SymbolTree.function?_declare hu lt]
  · intro _
    simp [openers]

end Declares

end Table

end Module

end Offside
