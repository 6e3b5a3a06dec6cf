import Offside.Symbol.Tree

/-!
Symbol trees as the declarations they stand for. A tree is well formed if its symbols are
found exactly under the names with which they were declared; declarations and the bodies
of functions keep it so, and neither changes what was declared before.
-/

namespace Offside

structure Declaration where
  name : String
  kind : SymbolKind
  parent : Option Nat
  deriving DecidableEq, Repr

def Symbol.declaration (s : Symbol) : Declaration :=
  ⟨s.name, s.kind, s.parent⟩

namespace SymbolTree

/-- The declarations made so far, each at the number of its symbol. -/
def declarations (t : SymbolTree) : List Declaration :=
  t.symbols.toList.map Symbol.declaration

variable {t u : SymbolTree} {scope id i : Nat} {name : String} {kind : SymbolKind}
  {f : Function} {s : Symbol} {d : Declaration}

theorem length_declarations (t : SymbolTree) : t.declarations.length = t.size := by
  simp [declarations, size]

theorem declarations_getElem? (t : SymbolTree) (id : Nat) :
    t.declarations[id]? = (t.get? id).map Symbol.declaration := by
  simp [declarations, get?]

theorem declarations_of_get? (known : t.get? id = some s) :
    t.declarations[id]? = some s.declaration := by
  rw [declarations_getElem?, known]
  rfl

def Fresh (t : SymbolTree) (scope : Nat) (name : String) : Prop :=
  ∀ d ∈ t.declarations, d.parent = some scope → d.name ≠ name

structure WellFormed (t : SymbolTree) : Prop where
  root : ∃ name, t.declarations[SymbolTree.root]? = some ⟨name, .function, none⟩
  parent_lt : ∀ {id d}, t.declarations[id]? = some d → id ≠ SymbolTree.root →
    ∃ p, p < id ∧ d.parent = some p
  child : ∀ {scope s name id}, t.get? scope = some s → ((name, id) ∈ s.children ↔
    ∃ d, t.declarations[id]? = some d ∧ d.parent = some scope ∧ d.name = name)
  distinct : ∀ {scope s}, t.get? scope = some s → (s.children.map (·.1)).Nodup
  function : ∀ {id s}, t.get? id = some s → (s.function.isSome ↔ s.kind = .function)

theorem lookup_eq_none {children : List (String × Nat)} :
    children.lookup name = none ↔ name ∉ children.map (·.1) := by
  rw [List.lookup_eq_none_iff, List.mem_map]
  constructor
  · rintro absent ⟨c, hc, rfl⟩
    simpa using absent c hc
  · intro absent c hc
    simpa using fun eq => absent ⟨c, hc, eq.symm⟩

theorem get?_new (name : String) (id : Nat) :
    (new name).get? id = if id = root then some (.fresh name .function none) else none := by
  cases id <;> rfl

theorem WellFormed.new (name : String) : (new name).WellFormed where
  root := ⟨name, rfl⟩
  parent_lt {id d} h ne := by
    rw [declarations_getElem?, get?_new, if_neg ne] at h
    cases h
  child {scope s x id} h := by
    rw [get?_new] at h
    split at h
    · cases h
      rw [declarations_getElem?, get?_new]
      split <;> simp [Symbol.fresh, Symbol.declaration]
    · cases h
  distinct {scope s} h := by
    rw [get?_new] at h
    split at h
    · cases h
      simp [Symbol.fresh]
    · cases h
  function {id s} h := by
    rw [get?_new] at h
    split at h
    · cases h
      simp [Symbol.fresh]
    · cases h

namespace WellFormed

theorem fresh_iff (wf : t.WellFormed) (h : t.get? scope = some s) :
    s.children.lookup name = none ↔ t.Fresh scope name := by
  rw [lookup_eq_none, List.mem_map]
  constructor
  · intro absent d hd parent eq
    obtain ⟨id, hid⟩ := List.mem_iff_getElem?.1 hd
    exact absent ⟨(name, id), (wf.child h).2 ⟨d, hid, parent, eq⟩, rfl⟩
  · rintro fresh ⟨⟨x, id⟩, hc, rfl⟩
    obtain ⟨d, hd, parent, eq⟩ := (wf.child h).1 hc
    exact fresh d (List.mem_of_getElem? hd) parent eq

theorem declare_isOk_iff (wf : t.WellFormed) :
    (∃ r, t.declare scope name kind = .ok r) ↔ scope < t.size ∧ t.Fresh scope name := by
  unfold declare
  split
  · next unknown =>
    have : t.size ≤ scope := by simpa [get?, size] using unknown
    simp only [reduceCtorEq, exists_false, false_iff]
    omega
  · next s known =>
    rw [← wf.fresh_iff known]
    have lt := get?_lt known
    by_cases taken : (s.children.lookup name).isSome
    · simp [taken, Option.isSome_iff_ne_none.1 taken]
    · simp [lt, Option.not_isSome_iff_eq_none.1 taken]

end WellFormed

theorem declare_of_free (known : t.get? scope = some s) (free : s.children.lookup name = none)
    (kind : SymbolKind) : ∃ u, t.declare scope name kind = .ok (u, t.size) := by
  simp [declare, known, free]

theorem declare_of_taken (known : t.get? scope = some s) (taken : s.children.lookup name ≠ none)
    (kind : SymbolKind) : t.declare scope name kind = .error (.nameTaken name) := by
  simp [declare, known, Option.isSome_iff_ne_none.2 taken]

/-- What a declaration makes of a tree. -/
theorem declare_eq_ok (h : t.declare scope name kind = .ok (u, id)) :
    ∃ s, t.get? scope = some s ∧ s.children.lookup name = none ∧ id = t.size ∧
      ∀ i, u.get? i =
        if i = t.size then some (.fresh name kind (some scope))
        else if i = scope then
          some { s with children := Symbol.insertChild name t.size s.children }
        else t.get? i := by
  unfold declare at h
  split at h
  · cases h
  · next s known =>
    split at h
    · cases h
    · next free =>
      cases h
      refine ⟨s, known, Option.not_isSome_iff_eq_none.1 free, rfl, fun i => ?_⟩
      have lt : scope < t.symbols.size := get?_lt known
      simp only [get?, size, Array.getElem?_push, Array.size_setIfInBounds,
        Array.getElem?_setIfInBounds]
      by_cases new : i = t.symbols.size
      · simp [new]
      · by_cases eq : i = scope
        · simp [eq, lt, Nat.ne_of_lt lt]
        · simp [eq, new, Ne.symm eq]

theorem declarations_declare (h : t.declare scope name kind = .ok (u, id)) :
    u.declarations = t.declarations ++ [⟨name, kind, some scope⟩] := by
  obtain ⟨s, known, -, -, get⟩ := declare_eq_ok h
  refine List.ext_getElem? fun i => ?_
  have lt := get?_lt known
  rw [declarations_getElem?, get, List.getElem?_append, length_declarations,
    declarations_getElem?]
  rcases Nat.lt_trichotomy i t.size with less | rfl | more
  · rw [if_neg (Nat.ne_of_lt less), if_pos less]
    split
    · next eq =>
      rw [eq, known]
      rfl
    · rfl
  · simp [Symbol.fresh, Symbol.declaration]
  · have none : t.get? i = none := by simpa [get?, size] using Nat.le_of_lt more
    rw [if_neg (by omega), if_neg (by omega), if_neg (by omega), none]
    simp
    omega

theorem function?_declare (h : t.declare scope name kind = .ok (u, id)) (lt : i < t.size) :
    u.function? i = t.function? i := by
  obtain ⟨s, known, -, -, get⟩ := declare_eq_ok h
  unfold function?
  rw [get, if_neg (Nat.ne_of_lt lt)]
  split
  · next eq =>
    rw [eq, known]
    rfl
  · rfl

theorem declarations_declare_eq_some (h : t.declare scope name kind = .ok (u, id)) :
    u.declarations[i]? = some d ↔
      t.declarations[i]? = some d ∨ i = t.size ∧ d = ⟨name, kind, some scope⟩ := by
  have length := length_declarations t
  rw [declarations_declare h, List.getElem?_append, length]
  split
  · next lt => simp [Nat.ne_of_lt lt]
  · next ge =>
    have absent : t.declarations[i]? = none := by simpa [length] using ge
    simp only [absent, List.getElem?_singleton, reduceCtorEq, false_or]
    by_cases eq : i = t.size
    · simp [eq, eq_comm]
    · simp [eq, show i - t.size ≠ 0 by omega]

theorem WellFormed.parent_lt_size (wf : t.WellFormed) (h : t.declarations[i]? = some d)
    {p : Nat} (parent : d.parent = some p) : p < t.size := by
  have lt : i < t.size := by
    rw [← length_declarations]
    exact (List.getElem?_eq_some_iff.1 h).1
  by_cases ne : i = SymbolTree.root
  · obtain ⟨name, root⟩ := wf.root
    rw [ne, root] at h
    cases h
    cases parent
  · obtain ⟨q, less, eq⟩ := wf.parent_lt h ne
    rw [parent] at eq
    cases eq
    omega

theorem keys_insertChild_nodup {children : List (String × Nat)}
    (absent : name ∉ children.map (·.1)) (distinct : (children.map (·.1)).Nodup) :
    ((Symbol.insertChild name id children).map (·.1)).Nodup := by
  induction children with
  | nil => simp [Symbol.insertChild]
  | cons c rest ih =>
    rw [List.map_cons, List.nodup_cons] at distinct
    rw [List.map_cons, List.mem_cons, not_or] at absent
    rw [Symbol.insertChild]
    split
    · simp only [List.map_cons, List.nodup_cons, List.mem_cons, not_or]
      exact ⟨absent, distinct⟩
    · rw [List.map_cons, List.nodup_cons]
      refine ⟨?_, ih absent.2 distinct.2⟩
      intro mem
      obtain ⟨other, hother, eq⟩ := List.mem_map.1 mem
      rcases Symbol.mem_insertChild.1 hother with rfl | old
      · exact absent.1 eq
      · exact distinct.1 (List.mem_map.2 ⟨other, old, eq⟩)

theorem WellFormed.child_declare (wf : t.WellFormed) (h : t.declare scope name kind = .ok (u, id))
    {scope' id' : Nat} {s' : Symbol} {x : String} (hs : u.get? scope' = some s') :
    (x, id') ∈ s'.children ↔
      ∃ d, u.declarations[id']? = some d ∧ d.parent = some scope' ∧ d.name = x := by
  obtain ⟨s, known, -, -, get⟩ := declare_eq_ok h
  have scope_lt := get?_lt known
  rw [get] at hs
  simp only [declarations_declare_eq_some h]
  split at hs
  · next new =>
    cases hs
    simp only [Symbol.fresh, List.not_mem_nil, false_iff]
    rintro ⟨d, old | ⟨-, rfl⟩, parent, -⟩
    · exact Nat.lt_irrefl _ (new ▸ wf.parent_lt_size old parent)
    · cases parent
      omega
  · split at hs
    · next same =>
      cases hs
      rw [Symbol.mem_insertChild, wf.child known, same]
      constructor
      · rintro (new | ⟨d, old, parent, eq⟩)
        · cases new
          exact ⟨_, .inr ⟨rfl, rfl⟩, rfl, rfl⟩
        · exact ⟨d, .inl old, parent, eq⟩
      · rintro ⟨d, old | ⟨rfl, rfl⟩, parent, rfl⟩
        · exact .inr ⟨d, old, parent, rfl⟩
        · exact .inl rfl
    · next other =>
      rw [wf.child hs]
      constructor
      · rintro ⟨d, old, parent, eq⟩
        exact ⟨d, .inl old, parent, eq⟩
      · rintro ⟨d, old | ⟨-, rfl⟩, parent, eq⟩
        · exact ⟨d, old, parent, eq⟩
        · exact absurd (Option.some.inj parent).symm other

theorem WellFormed.declare (wf : t.WellFormed) (h : t.declare scope name kind = .ok (u, id)) :
    u.WellFormed := by
  obtain ⟨s, known, free, -, get⟩ := declare_eq_ok h
  constructor
  case root =>
    obtain ⟨name, root⟩ := wf.root
    exact ⟨name, (declarations_declare_eq_some h).2 (.inl root)⟩
  case parent_lt =>
    intro id d hd ne
    rcases (declarations_declare_eq_some h).1 hd with old | ⟨rfl, rfl⟩
    · exact wf.parent_lt old ne
    · exact ⟨scope, get?_lt known, rfl⟩
  case child => exact wf.child_declare h
  case distinct =>
    intro scope' s' hs
    rw [get] at hs
    split at hs
    · cases hs
      simp [Symbol.fresh]
    · split at hs
      · cases hs
        exact keys_insertChild_nodup (lookup_eq_none.1 free) (wf.distinct known)
      · exact wf.distinct hs
  case function =>
    intro id' s' hs
    rw [get] at hs
    split at hs
    · cases hs
      cases kind <;> simp [Symbol.fresh]
    · split at hs
      · have payload := wf.function known
        cases hs
        exact payload
      · exact wf.function hs

/-- What a function does is replaced, and nothing else. -/
theorem setFunction_eq_ok (h : t.setFunction id f = .ok u) :
    ∃ s, t.get? id = some s ∧ s.function.isSome ∧
      ∀ i, u.get? i = if i = id then some { s with function := some f } else t.get? i := by
  unfold setFunction at h
  split at h
  · next s known =>
    split at h
    · next isFunction =>
      cases h
      refine ⟨s, known, isFunction, fun i => ?_⟩
      have lt : id < t.symbols.size := get?_lt known
      simp only [get?, Array.getElem?_setIfInBounds]
      by_cases eq : i = id
      · simp [eq, lt]
      · simp [eq, Ne.symm eq]
    · cases h
  · cases h

theorem WellFormed.setFunction_isOk (wf : t.WellFormed) (f : Function)
    (h : t.declarations[id]? = some d) (kind : d.kind = .function) :
    ∃ u, t.setFunction id f = .ok u := by
  rw [declarations_getElem?] at h
  obtain ⟨s, known, rfl⟩ := Option.map_eq_some_iff.1 h
  have isFunction : s.function.isSome := (wf.function known).2 kind
  simp only [setFunction, known, isFunction, if_true]
  exact ⟨_, rfl⟩

theorem declarations_setFunction (h : t.setFunction id f = .ok u) :
    u.declarations = t.declarations := by
  obtain ⟨s, known, -, get⟩ := setFunction_eq_ok h
  refine List.ext_getElem? fun i => ?_
  rw [declarations_getElem?, declarations_getElem?, get]
  split
  · next eq =>
    rw [eq, known]
    rfl
  · rfl

theorem function?_setFunction (h : t.setFunction id f = .ok u) (i : Nat) :
    u.function? i = if i = id then some f else t.function? i := by
  obtain ⟨s, known, -, get⟩ := setFunction_eq_ok h
  unfold function?
  rw [get]
  split <;> rfl

theorem WellFormed.setFunction (wf : t.WellFormed) (h : t.setFunction id f = .ok u) :
    u.WellFormed := by
  obtain ⟨s, known, isFunction, get⟩ := setFunction_eq_ok h
  have same := declarations_setFunction h
  constructor
  · exact same ▸ wf.root
  · exact same ▸ wf.parent_lt
  · intro scope s' x i hs
    rw [get] at hs
    rw [same]
    split at hs
    · next eq =>
      have child : (x, i) ∈ s.children ↔ _ := wf.child known
      cases hs
      exact eq ▸ child
    · exact wf.child hs
  · intro scope s' hs
    rw [get] at hs
    split at hs
    · have distinct := wf.distinct known
      cases hs
      exact distinct
    · exact wf.distinct hs
  · intro i s' hs
    rw [get] at hs
    split at hs
    · cases hs
      simp [(wf.function known).1 isFunction]
    · exact wf.function hs

end SymbolTree

end Offside
