import Mathlib
import Offside.Proofs.Module.Append
import Offside.Proofs.Module.Enclosed
import Offside.Proofs.Symbol.Shown

/-!
The order of declarations. Two neighbouring classes or functions at the margin can change places:
each comes to what it comes to by itself, under one root with the others, and what is rendered of
the root stands in the order of the names.
-/

namespace Offside

namespace SymbolTree

variable {t u v : SymbolTree} {x : String}

def entry (t : SymbolTree) : List Stmt :=
  ((t.get? root).map (·.body)).getD []

section Graft

variable (wf : t.WellFormed) (wf' : u.WellFormed)

include wf wf'

theorem isUsed_graft :
    (t.graft u).isUsed root x ↔ t.isUsed root x ∨ u.isUsed root x := by
  obtain ⟨r, ht⟩ := get?_isSome_of_lt wf.root_lt
  obtain ⟨s, hu⟩ := get?_isSome_of_lt wf'.root_lt
  rw [isUsed_iff (get?_graft_root ht hu), isUsed_iff ht, isUsed_iff hu]
  simp only [Ne, lookup_eq_none, not_not, Symbol.join, Symbol.mem_keys_union, Symbol.keys_raise]

theorem apart_graft : (t.graft u).Apart v ↔ t.Apart v ∧ u.Apart v := by
  unfold Apart
  simp only [isUsed_graft wf wf', or_imp, forall_and]

theorem entry_graft : (t.graft u).entry = t.entry ++ u.entry := by
  obtain ⟨r, ht⟩ := get?_isSome_of_lt wf.root_lt
  obtain ⟨s, hu⟩ := get?_isSome_of_lt wf'.root_lt
  simp only [entry, get?_graft_root ht hu, ht, hu]
  rfl

end Graft

theorem Apart.symm (h : t.Apart u) : u.Apart t := by
  intro x used
  by_contra taken
  rw [h x (by simpa using taken)] at used
  cases used

/-- Two trees that cannot be told apart by what is in the root, but for the numbers. -/
structure Alike (t u : SymbolTree) : Prop where
  used : ∀ x, t.isUsed root x ↔ u.isUsed root x
  entry : t.entry = u.entry
  shows : ∀ e, t.Shows e ↔ u.Shows e

theorem Alike.apart (h : t.Alike u) (apart : t.Apart v) : u.Apart v :=
  fun x used => apart x ((h.used x).2 used)

theorem Alike.graft (h : t.Alike u) (wf : t.WellFormed) (wf' : u.WellFormed)
    (more : v.WellFormed) (whole : (t.graft v).WellFormed) (whole' : (u.graft v).WellFormed) :
    (t.graft v).Alike (u.graft v) where
  used x := by rw [isUsed_graft wf more, isUsed_graft wf' more, h.used]
  entry := by rw [entry_graft wf more, entry_graft wf' more, h.entry]
  shows e := by rw [shows_graft wf more whole, shows_graft wf' more whole', h.shows]

theorem Alike.swap (wf : t.WellFormed) (wf₁ : u.WellFormed) (wf₂ : v.WellFormed)
    (one : (t.graft u).WellFormed) (one' : (t.graft v).WellFormed)
    (both : ((t.graft u).graft v).WellFormed) (both' : ((t.graft v).graft u).WellFormed)
    (silent : u.entry = []) : ((t.graft u).graft v).Alike ((t.graft v).graft u) where
  used x := by
    rw [isUsed_graft one wf₂, isUsed_graft wf wf₁, isUsed_graft one' wf₁, isUsed_graft wf wf₂]
    exact or_right_comm
  entry := by
    rw [entry_graft one wf₂, entry_graft wf wf₁, entry_graft one' wf₁, entry_graft wf wf₂, silent,
      List.append_nil, List.append_nil]
  shows e := by
    rw [shows_graft one wf₂ both, shows_graft wf wf₁ one, shows_graft one' wf₁ both',
      shows_graft wf wf₂ one']
    exact or_right_comm

end SymbolTree

namespace Module

open SymbolTree

variable {config : Config} {name : String} {a a' b c d : List Line} {t t' u w : SymbolTree}

theorem wellFormed_of_symbolsOf (ok : symbolsOf config name a = .ok t) : t.WellFormed :=
  (symbolsOf_blameless config name a).1 t ok

theorem text_of_alike (ok : symbolsOf config name a = .ok t)
    (ok' : symbolsOf config name a' = .ok t') (alike : t.Alike t') :
    ∃ text, (⟨name, t⟩ : Module).text = .ok text ∧ (⟨name, t'⟩ : Module).text = .ok text := by
  have wf := wellFormed_of_symbolsOf ok
  have wf' := wellFormed_of_symbolsOf ok'
  obtain ⟨o, made⟩ := wf.outline_isOk wf.root_lt
  obtain ⟨o', made'⟩ := wf'.outline_isOk wf'.root_lt
  have declared := rowsAll_eq_of_shows wf wf' (symbolsOf_edited ok).sorted
    (symbolsOf_edited ok').sorted made made' alike.shows
  have body : o.symbol.body = o'.symbol.body := by
    have entry := alike.entry
    rwa [SymbolTree.entry, SymbolTree.entry, (outline_eq_ok made).1,
      (outline_eq_ok made').1] at entry
  have rows : rows name o = rows name o' := by rw [rows_eq, rows_eq, body, declared]
  exact ⟨_, bind_eq_ok.2 ⟨o, made, rfl⟩, bind_eq_ok.2 ⟨o', made', congrArg Except.ok
    (congrArg Row.renderAll rows).symm⟩⟩

theorem symbolsOf_behind_alike (ok : symbolsOf config name a = .ok t)
    (ok' : symbolsOf config name a' = .ok t') (alike : t.Alike t')
    (plain : ∀ l, b.head? = some l → l.indentation = 0 ∧ afterElse? l.lexemes = none)
    (whole : symbolsOf config name (a ++ b) = .ok w) :
    ∃ w', symbolsOf config name (a' ++ b) = .ok w' ∧ w.Alike w' := by
  obtain ⟨_, u, same, hu, apart, rfl⟩ := (symbolsOf_append_eq_ok plain).1 whole
  cases ok.symm.trans same
  have whole' := (symbolsOf_append_eq_ok plain).2 ⟨t', u, ok', hu, alike.apart apart, rfl⟩
  exact ⟨_, whole', alike.graft (wellFormed_of_symbolsOf ok) (wellFormed_of_symbolsOf ok')
    (wellFormed_of_symbolsOf hu) (wellFormed_of_symbolsOf whole) (wellFormed_of_symbolsOf whole')⟩

theorem IsDeclaration.plain (h : IsDeclaration d) : ∀ l, d.head? = some l →
    l.indentation = 0 ∧ afterElse? l.lexemes = none := by
  have head := h.head []
  rwa [List.append_nil] at head

theorem symbolsOf_swap_last (first : IsDeclaration c) (second : IsDeclaration d)
    (ok : symbolsOf config name (a ++ c ++ d) = .ok w) :
    ∃ w', symbolsOf config name (a ++ d ++ c) = .ok w' ∧ w.Alike w' := by
  obtain ⟨_, v, one, hv, apart, rfl⟩ := (symbolsOf_append_eq_ok second.plain).1 ok
  obtain ⟨t, u, ht, hu, apart', rfl⟩ := (symbolsOf_append_eq_ok first.plain).1 one
  have wf := wellFormed_of_symbolsOf ht
  have wf₁ := wellFormed_of_symbolsOf hu
  have wf₂ := wellFormed_of_symbolsOf hv
  rw [apart_graft wf wf₁] at apart
  have one' := (symbolsOf_append_eq_ok second.plain).2 ⟨t, v, ht, hv, apart.1, rfl⟩
  have others : (t.graft v).Apart u := (apart_graft wf wf₂).2 ⟨apart', apart.2.symm⟩
  have ok' := (symbolsOf_append_eq_ok first.plain).2 ⟨_, u, one', hu, others, rfl⟩
  have silent : u.entry = [] := entry_eq_body (m := ⟨name, u⟩) (first.entry hu)
  exact ⟨_, ok', .swap wf wf₁ wf₂ (wellFormed_of_symbolsOf one) (wellFormed_of_symbolsOf one')
    (wellFormed_of_symbolsOf ok) (wellFormed_of_symbolsOf ok') silent⟩

theorem symbolsOf_swap (first : IsDeclaration c) (second : IsDeclaration d)
    (margin : ∀ l, b.head? = some l → l.indentation = 0)
    (ok : symbolsOf config name (a ++ c ++ d ++ b) = .ok w) :
    ∃ w', symbolsOf config name (a ++ d ++ c ++ b) = .ok w' ∧ w.Alike w' := by
  have plain : ∀ l, b.head? = some l → l.indentation = 0 ∧ afterElse? l.lexemes = none := by
    have whole := ok
    rw [List.append_assoc] at whole
    obtain ⟨_, u, -, behind, -⟩ := (symbolsOf_append_eq_ok (second.head b)).1 whole
    exact second.plain_behind margin behind
  obtain ⟨t, -, ht, -⟩ := (symbolsOf_append_eq_ok plain).1 ok
  obtain ⟨t', ht', alike⟩ := symbolsOf_swap_last first second ht
  exact symbolsOf_behind_alike ht ht' alike plain ok

/-- Two declarations at the margin can change places, if no indented line stands behind them: the
lines are accepted in both orders or in neither, and the modules have one text and the same
statements outside of all functions. -/
theorem ofLines_swap (config : Config) (name : String) (a b c d : List Line)
    (first : IsDeclaration c) (second : IsDeclaration d)
    (margin : ∀ l, b.head? = some l → l.indentation = 0) :
    ((∃ m, ofLines config name (a ++ c ++ d ++ b) = .ok m) ↔
      ∃ m, ofLines config name (a ++ d ++ c ++ b) = .ok m) ∧
    ∀ m m', ofLines config name (a ++ c ++ d ++ b) = .ok m →
      ofLines config name (a ++ d ++ c ++ b) = .ok m' →
        (∃ text, m.text = .ok text ∧ m'.text = .ok text) ∧ m.entry = m'.entry := by
  refine ⟨⟨?_, ?_⟩, fun m m' ok ok' => ?_⟩
  · rintro ⟨m, ok⟩
    obtain ⟨w, hw, -⟩ := bind_eq_ok.1 ok
    obtain ⟨w', hw', -⟩ := symbolsOf_swap first second margin hw
    exact ⟨_, bind_eq_ok.2 ⟨w', hw', rfl⟩⟩
  · rintro ⟨m, ok⟩
    obtain ⟨w, hw, -⟩ := bind_eq_ok.1 ok
    obtain ⟨w', hw', -⟩ := symbolsOf_swap second first margin hw
    exact ⟨_, bind_eq_ok.2 ⟨w', hw', rfl⟩⟩
  · obtain ⟨w, hw, eq⟩ := bind_eq_ok.1 ok
    cases eq
    obtain ⟨w', hw', eq⟩ := bind_eq_ok.1 ok'
    cases eq
    obtain ⟨_, same, alike⟩ := symbolsOf_swap first second margin hw
    cases hw'.symm.trans same
    exact ⟨text_of_alike hw hw' alike, alike.entry⟩

theorem ofLines_swap_between :
    let return_ (n d : Nat) : Line := ⟨n, d, [⟨.keyword .return_, none⟩]⟩
    let class_ : List Line := [⟨2, 0, [⟨.keyword .class_, none⟩, .ofWord "X"]⟩]
    let function : List Line := [⟨3, 0, [⟨.keyword .function, none⟩, .ofWord "f"]⟩, return_ 4 1]
    let before := [return_ 1 0]
    let behind := [return_ 5 0]
    IsDeclaration class_ ∧ IsDeclaration function ∧
      (∀ l, behind.head? = some l → l.indentation = 0) ∧
      ∃ m m', ofLines {} "m" (before ++ class_ ++ function ++ behind) = .ok m ∧
        ofLines {} "m" (before ++ function ++ class_ ++ behind) = .ok m' ∧
        (∃ text, m.text = .ok text ∧ m'.text = .ok text) ∧ m.entry = m'.entry := by
  intro return_ class_ function before behind
  have first : IsDeclaration class_ := ⟨_, _, rfl, rfl, rfl, List.forall_mem_nil _⟩
  have second : IsDeclaration function :=
    ⟨_, _, rfl, rfl, rfl, List.forall_mem_singleton.2 Nat.one_pos⟩
  have margin : ∀ l, behind.head? = some l → l.indentation = 0 := by
    rintro l ⟨⟩
    rfl
  have swap := ofLines_swap {} "m" before behind class_ function first second margin
  obtain ⟨m, ok⟩ : ∃ m, ofLines {} "m" (before ++ class_ ++ function ++ behind) = .ok m := ⟨_, rfl⟩
  obtain ⟨m', ok'⟩ := swap.1.1 ⟨m, ok⟩
  exact ⟨first, second, margin, m, m', ok, ok', swap.2 m m' ok ok'⟩

/-- An indented line behind the second declaration is in the first one if they change places. -/
theorem ofLines_swap_indented :
    let class_ : List Line := [⟨1, 0, [⟨.keyword .class_, none⟩, .ofWord "X"]⟩]
    let function : List Line := [⟨2, 0, [⟨.keyword .function, none⟩, .ofWord "f"]⟩]
    let behind : List Line := [⟨3, 1, [⟨.keyword .return_, none⟩]⟩]
    IsDeclaration class_ ∧ IsDeclaration function ∧
      ¬ ((∃ m, ofLines {} "m" ([] ++ class_ ++ function ++ behind) = .ok m) ↔
        ∃ m, ofLines {} "m" ([] ++ function ++ class_ ++ behind) = .ok m) := by
  intro class_ function behind
  refine ⟨⟨_, _, rfl, rfl, rfl, List.forall_mem_nil _⟩,
    ⟨_, _, rfl, rfl, rfl, List.forall_mem_nil _⟩, fun same => ?_⟩
  have fails : ofLines {} "m" ([] ++ function ++ class_ ++ behind) =
      .error ⟨3, .outsideFunction⟩ := rfl
  obtain ⟨m, ok⟩ := same.1 ⟨_, rfl⟩
  rw [fails] at ok
  cases ok

end Module

end Offside
