import Mathlib
import Offside.Proofs.Symbol.WellFormed

/-!
Trees that come of edits: of declarations and of new bodies for functions, in any order, whether
they succeed or not. Each symbol knows its scope and each scope its symbols, and the two never
disagree, whatever is done to the tree.
-/

namespace Offside

namespace SymbolTree

inductive Edit
  | declare (scope : Nat) (name : String) (kind : SymbolKind)
  | replace (id : Nat) (f : Function)
  deriving Repr

/-- The tree behind an edit. One that fails leaves the tree as it is. -/
def edit (t : SymbolTree) : Edit → SymbolTree
  | .declare scope name kind =>
    match t.declare scope name kind with
    | .ok (u, _) => u
    | .error _ => t
  | .replace id f =>
    match t.setFunction id f with
    | .ok u => u
    | .error _ => t

def editAll (t : SymbolTree) (es : List Edit) : SymbolTree :=
  es.foldl edit t

def declares (t : SymbolTree) : Edit → Bool
  | .declare scope name kind => (t.declare scope name kind).isOk
  | .replace .. => false

/-- How many of the edits are, each in the tree behind those before it. -/
def declareCount (t : SymbolTree) : List Edit → Nat
  | [] => 0
  | e :: es => (t.declares e).toNat + (t.edit e).declareCount es

/-- Parents and children tell of one tree. -/
structure Linked (t : SymbolTree) : Prop where
  root : ∃ s, t.get? root = some s ∧ s.parent = none
  parent : ∀ id s, t.get? id = some s → id ≠ SymbolTree.root →
    ∃ p, s.parent = some p ∧ p < id ∧ t.lookup p s.name = some id
  child : ∀ p s x id, t.get? p = some s → (x, id) ∈ s.children →
    ∃ c, t.get? id = some c ∧ c.name = x ∧ c.parent = some p
  function : ∀ id s, t.get? id = some s → (s.function.isSome ↔ s.kind = .function)

/-- `t.Encloses a id`: the symbol `a` is the scope of `id`, or one further out. -/
inductive Encloses (t : SymbolTree) (a : Nat) : Nat → Prop
  | scope {id s} : t.get? id = some s → s.parent = some a → Encloses t a id
  | further {id s p} : t.get? id = some s → s.parent = some p → Encloses t a p → Encloses t a id

variable {t u : SymbolTree} {scope id : Nat} {x : String} {kind : SymbolKind} {s : Symbol}

section Children

variable {children : List (String × Nat)}

theorem lookup_cons (c : String × Nat) (rest : List (String × Nat)) (y : String) :
    (c :: rest).lookup y = if y = c.1 then some c.2 else rest.lookup y := by
  rw [List.lookup_cons]
  by_cases eq : y = c.1
  · rw [eq, beq_self_eq_true, if_pos rfl]
  · rw [beq_false_of_ne eq, if_neg eq]

theorem lookup_eq_some (distinct : (children.map (·.1)).Nodup) (mem : (x, id) ∈ children) :
    children.lookup x = some id := by
  induction children with
  | nil => cases mem
  | cons c rest ih =>
    rw [List.map_cons, List.nodup_cons] at distinct
    rw [lookup_cons]
    rcases List.mem_cons.1 mem with rfl | mem
    · exact if_pos rfl
    · have ne : x ≠ c.1 := by
        rintro rfl
        exact distinct.1 (List.mem_map.2 ⟨_, mem, rfl⟩)
      rw [if_neg ne]
      exact ih distinct.2 mem

theorem lookup_insertChild (free : children.lookup x = none) (y : String) :
    (Symbol.insertChild x id children).lookup y =
      if y = x then some id else children.lookup y := by
  induction children with
  | nil => exact lookup_cons (x, id) [] y
  | cons c rest ih =>
    rw [lookup_eq_none, List.map_cons, List.mem_cons, not_or, ← lookup_eq_none] at free
    rw [Symbol.insertChild]
    split
    · exact lookup_cons (x, id) (c :: rest) y
    · rw [lookup_cons, lookup_cons, ih free.2]
      by_cases eq : y = x
      · rw [eq, if_neg free.1, if_pos rfl, if_pos rfl]
      · rw [if_neg eq, if_neg eq]

end Children

theorem lookup_eq (known : t.get? scope = some s) : t.lookup scope x = s.children.lookup x := by
  rw [lookup, known]
  rfl

theorem exists_get? (lt : id < t.size) : ∃ s, t.get? id = some s :=
  ⟨_, Array.getElem?_eq_getElem lt⟩

theorem WellFormed.mem_children_iff (wf : t.WellFormed) (known : t.get? scope = some s) :
    (x, id) ∈ s.children ↔ ∃ c, t.get? id = some c ∧ c.name = x ∧ c.parent = some scope := by
  rw [wf.child known]
  constructor
  · rintro ⟨d, declared, parent, name⟩
    rw [declarations_getElem?] at declared
    obtain ⟨c, child, rfl⟩ := Option.map_eq_some_iff.1 declared
    exact ⟨c, child, name, parent⟩
  · rintro ⟨c, child, name, parent⟩
    exact ⟨c.declaration, declarations_of_get? child, parent, name⟩

theorem WellFormed.linked (wf : t.WellFormed) : t.Linked where
  root := by
    obtain ⟨name, declared⟩ := wf.root
    rw [declarations_getElem?] at declared
    obtain ⟨s, known, eq⟩ := Option.map_eq_some_iff.1 declared
    exact ⟨s, known, congrArg Declaration.parent eq⟩
  parent id s known ne := by
    obtain ⟨p, lt, parent⟩ := wf.parent_lt (declarations_of_get? known) ne
    obtain ⟨scope, around⟩ := exists_get? (Nat.lt_trans lt (get?_lt known))
    have mem : (s.name, id) ∈ scope.children :=
      (wf.mem_children_iff around).2 ⟨s, known, rfl, parent⟩
    exact ⟨p, parent, lt, (lookup_eq around).trans (lookup_eq_some (wf.distinct around) mem)⟩
  child _ _ _ _ known mem := (wf.mem_children_iff known).1 mem
  function _ _ := wf.function

section Edits

theorem WellFormed.edit (wf : t.WellFormed) (e : Edit) : (t.edit e).WellFormed := by
  cases e with
  | declare scope x kind =>
    rw [SymbolTree.edit]
    split
    · next made => exact wf.declare made
    · exact wf
  | replace id f =>
    rw [SymbolTree.edit]
    split
    · next made => exact wf.setFunction made
    · exact wf

theorem WellFormed.editAll (wf : t.WellFormed) (es : List Edit) : (t.editAll es).WellFormed := by
  induction es generalizing t with
  | nil => exact wf
  | cons e es ih => exact ih (wf.edit e)

theorem size_edit (t : SymbolTree) (e : Edit) :
    (t.edit e).size = t.size + (t.declares e).toNat := by
  cases e with
  | declare scope x kind =>
    rw [edit, declares]
    cases made : t.declare scope x kind with
    | ok r => exact (size_declare made).2
    | error fault => rfl
  | replace id f =>
    rw [edit, declares]
    cases made : t.setFunction id f with
    | ok u => exact size_setFunction made
    | error fault => rfl

theorem size_editAll (t : SymbolTree) (es : List Edit) :
    (t.editAll es).size = t.size + t.declareCount es := by
  induction es generalizing t with
  | nil => rfl
  | cons e es ih =>
    rw [declareCount, ← Nat.add_assoc, ← size_edit]
    exact ih (t.edit e)

end Edits

/-- What a declaration in a known scope does. It fails for a name that is taken there and for no
other reason; else the next number is given to a new symbol, and of the symbols before it only the
scope changes, in which the name is found now. -/
structure Declaring (t : SymbolTree) (scope : Nat) (x : String) (kind : SymbolKind) : Prop where
  succeeds : (∃ r, t.declare scope x kind = .ok r) ↔ t.lookup scope x = none
  fails : ∀ fault, t.declare scope x kind = .error fault →
    fault = .nameTaken x ∧ t.edit (.declare scope x kind) = t
  number : ∀ u id, t.declare scope x kind = .ok (u, id) →
    t.edit (.declare scope x kind) = u ∧ id = t.size ∧
      u.get? id = some (.fresh x kind (some scope))
  others : ∀ u id, t.declare scope x kind = .ok (u, id) → ∀ i s, t.get? i = some s →
    ∃ children, u.get? i = some { s with children := children } ∧
      (i ≠ scope → children = s.children)
  found : ∀ u id, t.declare scope x kind = .ok (u, id) → ∀ y,
    u.lookup scope y = if y = x then some id else t.lookup scope y

theorem declaring (lt : scope < t.size) (x : String) (kind : SymbolKind) :
    t.Declaring scope x kind := by
  obtain ⟨s, known⟩ := exists_get? lt
  constructor
  · rw [lookup_eq known]
    constructor
    · rintro ⟨⟨u, id⟩, made⟩
      obtain ⟨s', known', free, -⟩ := declare_eq_ok made
      cases known.symm.trans known'
      exact free
    · intro free
      obtain ⟨u, made⟩ := declare_of_free known free kind
      exact ⟨_, made⟩
  · intro fault fails
    have taken : s.children.lookup x ≠ none := by
      intro free
      obtain ⟨u, made⟩ := declare_of_free known free kind
      cases made.symm.trans fails
    refine ⟨Except.error.inj (fails.symm.trans (declare_of_taken known taken kind)), ?_⟩
    rw [edit, fails]
  · intro u id made
    obtain ⟨_, -, -, rfl, symbols⟩ := declare_eq_ok made
    refine ⟨?_, rfl, ?_⟩
    · rw [edit, made]
    · rw [symbols, if_pos rfl]
  · intro u id made i s' before
    obtain ⟨s, known, -, -, symbols⟩ := declare_eq_ok made
    rw [symbols, if_neg (Nat.ne_of_lt (get?_lt before))]
    by_cases eq : i = scope
    · subst eq
      cases known.symm.trans before
      exact ⟨_, if_pos rfl, fun ne => absurd rfl ne⟩
    · exact ⟨s'.children, by rw [if_neg eq, before], fun _ => rfl⟩
  · intro u id made y
    obtain ⟨s', known', free, rfl, symbols⟩ := declare_eq_ok made
    have after : u.get? scope = some { s' with
        children := Symbol.insertChild x t.size s'.children } := by
      rw [symbols, if_neg (Nat.ne_of_lt lt), if_pos rfl]
    rw [lookup_eq after, lookup_eq known']
    exact lookup_insertChild free y

/-- Whatever is done to a tree that begins with the entry function alone: parents and children tell
of one tree, each declaration that succeeds has added a symbol, and the next one does as it should
in any scope. -/
theorem editAll_linked (name : String) (es : List Edit) :
    ((new name).editAll es).Linked ∧
    ((new name).editAll es).size = 1 + (new name).declareCount es ∧
    ∀ scope, scope < ((new name).editAll es).size → ∀ x kind,
      ((new name).editAll es).Declaring scope x kind :=
  ⟨((WellFormed.new name).editAll es).linked, size_editAll (new name) es,
    fun _ lt x kind => declaring lt x kind⟩

theorem editAll_linked_collision :
    let t := (new "m").editAll [.declare 0 "A" .class_, .declare 1 "f" .function,
      .declare 0 "A" .variable_, .replace 2 ⟨["x"], []⟩]
    t.Linked ∧ t.size = 3 ∧ 1 < t.size ∧ t.declare 1 "f" .function = .error (.nameTaken "f") ∧
      ∃ u, t.declare 1 "A" .function = .ok (u, 3) ∧ u.lookup 1 "A" = some 3 := by
  intro t
  obtain ⟨linked, size, declaring⟩ := editAll_linked "m" [.declare 0 "A" .class_,
    .declare 1 "f" .function, .declare 0 "A" .variable_, .replace 2 ⟨["x"], []⟩]
  have count : t.size = 3 := size.trans (by cbv)
  have known : 1 < t.size := by
    rw [count]
    decide
  have taken : t.lookup 1 "f" = some 2 := by cbv
  have inClass := declaring 1 known
  refine ⟨linked, count, known, ?_, ?_⟩
  · cases made : t.declare 1 "f" .function with
    | ok r =>
      have free := (inClass "f" .function).succeeds.1 ⟨r, made⟩
      cases taken.symm.trans free
    | error fault => rw [((inClass "f" .function).fails fault made).1]
  · obtain ⟨⟨u, id⟩, made⟩ := (inClass "A" .function).succeeds.2 (by cbv)
    obtain ⟨-, rfl, -⟩ := (inClass "A" .function).number u id made
    have found := (inClass "A" .function).found u _ made "A"
    rw [if_pos rfl, count] at found
    rw [count] at made
    exact ⟨u, made, found⟩

end SymbolTree

end Offside
