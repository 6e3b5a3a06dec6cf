import Mathlib
import Offside.Proofs.Module.Run
import Offside.Proofs.Scan.Output
import Offside.Proofs.Symbol.Qualified

/-!
The names that a source declares. Each was read as a plain name, so it is a word, and none of the
reserved ones. A word has no dot in it: every symbol of a module is found by its qualified name.
-/

namespace Offside

structure IsName (x : String) : Prop where
  word : isIdentifier x = true
  free : Lexeme.reserved.lookup x = none

theorem IsName.dotless {x : String} (h : IsName x) : '.' ∉ x.toList := by
  obtain ⟨c, cs, text, start, all⟩ := Scan.isIdentifier_iff.1 h.word
  rw [text, List.mem_cons, not_or]
  constructor
  · rintro rfl
    exact absurd start (by decide)
  · intro mem
    exact absurd (all _ mem) (by decide)

theorem Lexeme.Scanned.isName {l : Lexeme} {x : String} (h : l.Scanned)
    (plain : l.plainName? = some x) : IsName x := by
  cases h with
  | fixed => cases plain
  | name word free =>
    obtain rfl := Ident.plain?_eq_some.1 plain
    exact ⟨word, free rfl⟩
  | literal => cases plain

theorem of_mem_mapM {α β : Type} {f : α → Option β} {xs : List α} {ys : List β}
    (h : xs.mapM f = some ys) : ∀ y ∈ ys, ∃ x ∈ xs, f x = some y := by
  induction xs generalizing ys with
  | nil =>
    cases h
    exact List.forall_mem_nil _
  | cons x xs ih =>
    rw [List.mapM_cons] at h
    obtain ⟨y, hy, h⟩ := Option.bind_eq_some_iff.1 h
    obtain ⟨rest, more, eq⟩ := Option.bind_eq_some_iff.1 h
    cases eq
    refine List.forall_mem_cons.2 ⟨⟨x, List.mem_cons_self, hy⟩, fun z mem => ?_⟩
    obtain ⟨w, hw, eq⟩ := ih more z mem
    exact ⟨w, List.mem_cons_of_mem _ hw, eq⟩

namespace Module

variable {config : Config} {ls : List Line} {name : String} {t : SymbolTree}

theorem lineAt_scanned (scanned : ∀ l ∈ ls, ∀ x ∈ l.lexemes, x.Scanned) (i : Nat) :
    ∀ x ∈ (lineAt ls i).lexemes, x.Scanned := by
  by_cases lt : i < ls.length
  · rw [lineAt_eq_getElem lt]
    exact scanned _ (List.getElem_mem lt)
  · have outside : lineAt ls i = ⟨0, 0, []⟩ := by simp [lineAt, Nat.not_lt.1 lt]
    rw [outside]
    exact List.forall_mem_nil _

theorem isName_of_mem_names (scanned : ∀ l ∈ ls, ∀ x ∈ l.lexemes, x.Scanned) (i : Nat) :
    ∀ x ∈ names ls i, IsName x := by
  unfold names
  split
  · cases plain : (lineAt ls i).lexemes.tail.mapM Lexeme.plainName? with
    | none => exact List.forall_mem_nil _
    | some xs =>
      intro x mem
      obtain ⟨l, hl, eq⟩ := of_mem_mapM plain x mem
      exact (lineAt_scanned scanned i l (List.mem_of_mem_tail hl)).isName eq
  · exact List.forall_mem_nil _

theorem Finished.isName (finished : Finished config ls name t)
    (scanned : ∀ l ∈ ls, ∀ x ∈ l.lexemes, x.Scanned) {d : Declaration} (mem : d ∈ t.declarations)
    (inner : d.parent ≠ none) : IsName d.name := by
  rw [finished.declarations] at mem
  rcases List.mem_cons.1 mem with rfl | mem
  · contradiction
  · obtain ⟨i, -, mem⟩ := List.mem_flatMap.1 mem
    have named := isName_of_mem_names scanned i
    unfold declared at mem
    split at mem
    · cases mem
    · next x arguments eq =>
      rw [eq] at named
      rcases List.mem_cons.1 mem with rfl | mem
      · exact named x List.mem_cons_self
      · obtain ⟨y, hy, rfl⟩ := List.mem_map.1 mem
        exact named y (List.mem_cons_of_mem _ hy)

theorem Finished.dotless (finished : Finished config ls name t)
    (scanned : ∀ l ∈ ls, ∀ x ∈ l.lexemes, x.Scanned) : t.Dotless name where
  wellFormed := finished.wellFormed
  root := by
    rw [finished.declarations]
    rfl
  names _ mem inner := (finished.isName scanned mem inner).dotless

/-- Qualified names are addresses, in every tree that comes of declarations without dots and in every
module that comes of a source, whatever the name of the module. -/
theorem qualifiedName_addressed :
    (∀ name (es : List SymbolTree.Edit), (∀ e ∈ es, e.Plain) →
      ((SymbolTree.new name).editAll es).Addressed name) ∧
    ∀ config name source m, ofSource config name source = .ok m →
      m.name = name ∧ m.symbols.Addressed name := by
  refine ⟨fun name es plain => ((SymbolTree.Dotless.new name).editAll plain).addressed,
    fun config name source m ok => ?_⟩
  obtain ⟨lines, read, ok⟩ := bind_eq_ok.1 ok
  obtain ⟨t, built, eq⟩ := bind_eq_ok.1 ok
  cases eq
  obtain ⟨-, finished⟩ := symbolsOf_eq_ok (lexemes_of_tokenize read) built
  exact ⟨rfl, (finished.dotless (tokenize_scanned read)).addressed⟩

theorem qualifiedName_addressed_dots :
    (∃ m, ofSource {} "a.b" "class f\n\tfunction f" = .ok m ∧
      m.symbols.qualifiedName 2 = "a.b.f.f" ∧
      ∀ x, m.symbols.resolve SymbolTree.root x = some 2 ↔ x = "f.f") ∧
    let es : List SymbolTree.Edit := [.declare 0 "" .class_, .declare 1 "" .variable_]
    (∀ e ∈ es, e.Plain) ∧
      ∀ x, ((SymbolTree.new "").editAll es).resolve SymbolTree.root x = some 2 ↔ x = "." := by
  have plain : ∀ e ∈ ([.declare 0 "" .class_, .declare 1 "" .variable_] : List SymbolTree.Edit),
      e.Plain := by
    simp [SymbolTree.Edit.Plain]
  have ok : ofSource {} "a.b" "class f\n\tfunction f" = .ok ⟨"a.b", ⟨#[
      ⟨"a.b", .function, none, [("f", 1)], some {}⟩,
      ⟨"f", .class_, some 0, [("f", 2)], none⟩,
      ⟨"f", .function, some 1, [], some {}⟩]⟩⟩ := by cbv
  obtain ⟨path, named, found⟩ := (qualifiedName_addressed.2 {} "a.b" _ _ ok).2.resolved 2
    (by decide) (by decide)
  obtain ⟨path', named', found'⟩ := (qualifiedName_addressed.1 "" _ plain).resolved 2
    (by decide) (by decide)
  refine ⟨⟨_, ok, ?_⟩, plain, ?_⟩
  · have address : path = "f.f" := (found _).1 (by cbv) |>.symm
    subst address
    exact ⟨named, found⟩
  · have address : path' = "." := (found' _).1 (by cbv) |>.symm
    subst address
    exact found'

end Module

end Offside
