import Mathlib
import Offside.Proofs.Module.Legible

/-!
The arguments of a function are kept twice, as the names it takes and as the variables declared in
it. The variables are declared before the body of the function begins and the names are set when it
ends; whatever is declared in between leaves both alone.
-/

namespace Offside

namespace SymbolTree

/-- The variables of a symbol are its arguments, numbered right behind it in their order. Nothing
else in it goes by the name of one. -/
structure Takes (t : SymbolTree) (id : Nat) (s : Symbol) (arguments : List String) : Prop where
  distinct : arguments.Nodup
  argument : ∀ k x, arguments[k]? = some x →
    ∃ v, t.get? (id + 1 + k) = some v ∧ v.declaration = ⟨x, .variable_, some id⟩
  child : ∀ x i, ((x, i) ∈ s.children ∧ ∃ v, t.get? i = some v ∧ v.kind = .variable_) ↔
    ∃ k, arguments[k]? = some x ∧ i = id + 1 + k
  other : ∀ i c, t.get? i = some c → c.parent = some id → c.kind ≠ .variable_ →
    c.name ∉ arguments

/-- Every function but the entry function takes its arguments, and there are no other variables. -/
structure Argued (t : SymbolTree) : Prop where
  function : ∀ id s, t.get? id = some s → id ≠ root → s.kind = .function →
    ∃ f, s.function = some f ∧ t.Takes id s f.arguments
  variable_ : ∀ i v, t.get? i = some v → v.kind = .variable_ → v.children = [] ∧
    ∃ p s, v.parent = some p ∧ p ≠ root ∧ t.get? p = some s ∧ s.kind = .function

variable {t : SymbolTree} {id scope i j : Nat} {s a b : Symbol} {arguments : List String}

theorem WellFormed.eq_of_name (wf : t.WellFormed) (known : t.get? scope = some s)
    (ha : t.get? i = some a) (hb : t.get? j = some b) (inA : a.parent = some scope)
    (inB : b.parent = some scope) (name : a.name = b.name) : i = j := by
  have first : (b.name, i) ∈ s.children := (wf.mem_children_iff known).2 ⟨a, ha, name, inA⟩
  have second : (b.name, j) ∈ s.children := (wf.mem_children_iff known).2 ⟨b, hb, rfl, inB⟩
  have found := lookup_eq_some (wf.distinct known) first
  rw [lookup_eq_some (wf.distinct known) second] at found
  exact (Option.some.inj found).symm

theorem WellFormed.takes (wf : t.WellFormed) (known : t.get? id = some s)
    (distinct : arguments.Nodup)
    (argument : ∀ k x, arguments[k]? = some x →
      ∃ v, t.get? (id + 1 + k) = some v ∧ v.declaration = ⟨x, .variable_, some id⟩)
    (all : ∀ i v, t.get? i = some v → v.parent = some id → v.kind = .variable_ →
      v.name ∈ arguments) : t.Takes id s arguments := by
  have only (i : Nat) (c : Symbol) (hc : t.get? i = some c) (parent : c.parent = some id)
      (mem : c.name ∈ arguments) :
      ∃ k, arguments[k]? = some c.name ∧ i = id + 1 + k ∧ c.kind = .variable_ := by
    obtain ⟨k, place⟩ := List.mem_iff_getElem?.1 mem
    obtain ⟨v, hv, declares⟩ := argument k c.name place
    have number := wf.eq_of_name known hc hv parent (congrArg Declaration.parent declares)
      (congrArg Declaration.name declares).symm
    subst number
    cases hc.symm.trans hv
    exact ⟨k, place, rfl, congrArg Declaration.kind declares⟩
  refine ⟨distinct, argument, fun x i => ⟨?_, ?_⟩, fun i c hc parent notVariable mem => ?_⟩
  · rintro ⟨mem, v, hv, kind⟩
    obtain ⟨c, hc, rfl, parent⟩ := (wf.mem_children_iff known).1 mem
    cases hv.symm.trans hc
    obtain ⟨k, place, number, -⟩ := only i v hv parent (all i v hv parent kind)
    exact ⟨k, place, number⟩
  · rintro ⟨k, place, rfl⟩
    obtain ⟨v, hv, declares⟩ := argument k x place
    exact ⟨(wf.mem_children_iff known).2 ⟨v, hv, congrArg Declaration.name declares,
      congrArg Declaration.parent declares⟩, v, hv, congrArg Declaration.kind declares⟩
  · obtain ⟨k, -, -, kind⟩ := only i c hc parent mem
    exact notVariable kind

end SymbolTree

namespace Module

variable {config : Config} {ls : List Line} {name : String} {t : SymbolTree} {i id : Nat}
  {s v : Symbol}

theorem Finished.get?_argument (finished : Finished config ls name t) (lt : i < ls.length) {k : Nat}
    {x : String} (argument : (names ls i).tail[k]? = some x) :
    ∃ v, t.get? (symbolAt ls i + 1 + k) = some v ∧
      v.declaration = ⟨x, .variable_, some (symbolAt ls i)⟩ := by
  cases named : names ls i with
  | nil =>
    rw [named] at argument
    cases argument
  | cons y arguments =>
    rw [named, List.tail_cons] at argument
    have own : k + 1 < (names ls i).length := by
      rw [named, List.length_cons]
      exact Nat.succ_lt_succ (List.getElem?_eq_some_iff.1 argument).1
    have numbered := getElem?_declarations lt name own
    rw [← finished.declarations, SymbolTree.declarations_getElem?, declared, named,
      List.getElem?_cons_succ, List.getElem?_map, argument, Nat.add_comm k,
      ← Nat.add_assoc] at numbered
    exact Option.map_eq_some_iff.1 numbered

theorem mem_declarations_of_variable (known : t.get? i = some v) (parent : v.parent = some id)
    (kind : v.kind = .variable_) : ⟨v.name, .variable_, some id⟩ ∈ t.declarations := by
  rw [← parent, ← kind]
  exact List.mem_of_getElem? (SymbolTree.declarations_of_get? known)

section Readable

variable (finished : Finished config ls name t) (h : Readable config ls)

include finished h

theorem takes_arguments (known : t.get? id = some s) (inner : id ≠ SymbolTree.root)
    (kind : s.kind = .function) : ∃ f, s.function = some f ∧ t.Takes id s f.arguments := by
  obtain ⟨f, does⟩ := Option.isSome_iff_exists.1 ((finished.wellFormed.function known).2 kind)
  have found : t.function? id = some f := by
    rw [SymbolTree.function?, known]
    exact does
  obtain ⟨o, rfl, line, -⟩ := finished.body found
  cases o with
  | none => exact absurd rfl inner
  | some p =>
    obtain ⟨lt, role⟩ := line p rfl
    obtain ⟨f', found', same, -⟩ := finished.functions p lt role
    cases found.symm.trans found'
    refine ⟨f, does, finished.wellFormed.takes known ?_ ?_ fun i v hv parent kind => ?_⟩
    · exact same ▸ (h.accepted p lt).names.arguments
    · exact fun k x place => finished.get?_argument lt (same ▸ place)
    · have mem := mem_declarations_of_variable hv parent kind
      rwa [← mem_arguments finished h known, Symbol.arguments, does] at mem

theorem parent_of_variable (known : t.get? i = some v) (kind : v.kind = .variable_) :
    ∃ p s, v.parent = some p ∧ p ≠ SymbolTree.root ∧ t.get? p = some s ∧ s.kind = .function := by
  have inner : i ≠ SymbolTree.root := by
    rintro rfl
    obtain ⟨_, root⟩ := finished.wellFormed.root
    rw [SymbolTree.declarations_of_get? known] at root
    cases (congrArg Declaration.kind (Option.some.inj root)).symm.trans kind
  obtain ⟨p, parent, -⟩ := finished.wellFormed.linked.parent i v known inner
  obtain ⟨q, lt, rfl, mem⟩ :=
    finished.variable_iff.1 (mem_declarations_of_variable known parent kind)
  obtain ⟨f, does, -⟩ := exists_function finished h lt mem
  obtain ⟨s, around, isFunction⟩ := Option.bind_eq_some_iff.1 does
  exact ⟨_, s, parent, Nat.ne_of_gt (symbolAt_pos q), around,
    (finished.wellFormed.function around).1 (Option.isSome_of_mem isFunction)⟩

theorem children_of_variable (known : t.get? i = some v) (kind : v.kind = .variable_) :
    v.children = [] := by
  rw [List.eq_nil_iff_forall_not_mem]
  rintro ⟨x, j⟩ mem
  obtain ⟨c, child, -, parent⟩ := (finished.wellFormed.mem_children_iff known).1 mem
  have declared := List.mem_of_getElem? (SymbolTree.declarations_of_get? child)
  exact parent_ne_variable finished h declared parent known kind

end Readable

/-- In every module that comes of a source, each function takes its arguments as the variables
declared right behind it, and every variable is one of them. -/
theorem ofSource_argued (config : Config) (name source : String) (m : Module)
    (ok : ofSource config name source = .ok m) : m.symbols.Argued := by
  obtain ⟨lines, read, ok⟩ := bind_eq_ok.1 ok
  obtain ⟨t, built, eq⟩ := bind_eq_ok.1 ok
  cases eq
  have ne := lexemes_of_tokenize read
  have h := readable_of_symbolsOf ne built
  obtain ⟨-, finished⟩ := symbolsOf_eq_ok ne built
  exact ⟨fun id s known inner kind => takes_arguments finished h known inner kind,
    fun i v known kind =>
      ⟨children_of_variable finished h known kind, parent_of_variable finished h known kind⟩⟩

theorem ofSource_argued_nested :
    ∃ m, ofSource {} "m" "function f a b\n\tfunction g a\n\t\treturn b" = .ok m ∧
      m.symbols.Argued ∧ (m.symbols.get? 1).map Symbol.arguments = some ["a", "b"] ∧
      (m.symbols.get? 1).map Symbol.children = some [("a", 2), ("b", 3), ("g", 4)] := by
  have ok : ofSource {} "m" "function f a b\n\tfunction g a\n\t\treturn b" =
      .ok ⟨"m", ⟨#[
        ⟨"m", .function, none, [("f", 1)], some {}⟩,
        ⟨"f", .function, some 0, [("a", 2), ("b", 3), ("g", 4)], some ⟨["a", "b"], []⟩⟩,
        ⟨"a", .variable_, some 1, [], none⟩,
        ⟨"b", .variable_, some 1, [], none⟩,
        ⟨"g", .function, some 1, [("a", 5)],
          some ⟨["a"], [.return_ (.ident ⟨"b", .none⟩) 3]⟩⟩,
        ⟨"a", .variable_, some 4, [], none⟩]⟩⟩ := by cbv
  exact ⟨_, ok, ofSource_argued _ _ _ _ ok, rfl, rfl⟩

end Module

end Offside
