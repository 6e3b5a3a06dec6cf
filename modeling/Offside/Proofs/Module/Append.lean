import Offside.Proofs.Module.Behind

/-!
Modules in two parts. Behind the last line of the first part every block ends, so that the
second part is read as if it stood alone, with what the first part has declared in the root.
-/

namespace Offside

open SymbolTree

theorem SymbolTree.isUsed_iff {t : SymbolTree} {scope : Nat} {x : String} {s : Symbol}
    (known : t.get? scope = some s) : t.isUsed scope x ↔ s.children.lookup x ≠ none := by
  rw [isUsed, lookup, known, ← Option.isSome_iff_ne_none]
  rfl

def SymbolTree.Apart (t u : SymbolTree) : Prop :=
  ∀ x, t.isUsed root x → u.isUsed root x = false

namespace Module

variable {config : Config} {name : String} {a b ls : List Line} {k : Nat} {t u w : SymbolTree}
  {r : Symbol} {s s' f : State} {entry : List Stmt}

namespace State

theorem done_eq_ok : s.done = .ok t ↔ ∃ u, s.leaveTo 0 = .ok u ∧
    u.symbols.setFunction root ⟨[], u.entry.reverse⟩ = .ok t :=
  bind_eq_ok

theorem done_of_leaveTo (h : s.leaveTo 0 = .ok f) : s.done = f.done := by
  have flat : f.blocks.length ≤ 0 := by
    rw [length_leaveTo h]
    exact Nat.min_le_right _ _
  rw [done, done, h, leaveTo_of_le flat]

theorem step_of_leaveTo {l : Line} (h : s.leaveTo 0 = .ok f) (level : l.indentation = 0)
    (plain : afterElse? l.lexemes = none) : s.step config l = f.step config l := by
  have flat : f.blocks.length ≤ 0 := by
    rw [length_leaveTo h]
    exact Nat.min_le_right _ _
  rw [step_of_not_else (by omega) plain, step_of_not_else (by omega) plain, level, h,
    leaveTo_of_le flat]

end State

theorem isUsed_root_iff (ok : symbolsOf config name ls = .ok t) (x : String) :
    t.isUsed root x ↔ ∃ i, i < ls.length ∧ rootName? ls i = some x := by
  obtain ⟨s, read, done⟩ := bind_eq_ok.1 ok
  obtain ⟨v, left, set⟩ := State.done_eq_ok.1 (atLine_eq_ok.1 done)
  rw [← List.take_length (l := ls)] at read
  have reached := Reached.of_readAll (Nat.le_refl _) read
  have wf := (State.sound_leaveTo reached.sound left).wellFormed.setFunction set
  obtain ⟨r, known⟩ := get?_isSome_of_lt wf.root_lt
  have declared : t.declarations = s.symbols.declarations := by
    rw [declarations_setFunction set, (State.leaveMany_effect left).2]
  have fresh : t.Fresh root x ↔ s.symbols.Fresh root x := by rw [Fresh, declared, Fresh]
  rw [isUsed_iff known, Ne, wf.fresh_iff known, fresh, reached.fresh]
  push Not
  rfl

/-- On the lines: those that declare no name again come to the same behind the first part. -/
theorem readAll_behind (ht : t.get? root = some r) (entry : List Stmt) (le : k ≤ ls.length)
    (free : ∀ i, i < k → ∀ x, rootName? ls i = some x → r.children.lookup x = none) :
    ((State.start name).behind t entry).readAll config (ls.take k) =
      ((State.start name).readAll config (ls.take k)).map (State.behind t entry) := by
  induction k with
  | zero => rfl
  | succ k ih =>
    rw [take_succ_lines le, State.readAll_append, State.readAll_append,
      ih (Nat.le_of_lt le) fun i lt => free i (Nat.lt_succ_of_lt lt)]
    cases read : (State.start name).readAll config (ls.take k) with
    | error e => rfl
    | ok s =>
      have reached := Reached.of_readAll (Nat.le_of_lt le) read
      have step := reached.movable.step (l := lineAt ls k) ht entry config
        fun u level left top x named => free k (Nat.lt_succ_self k) x
          (rootName?_eq_some.2 ⟨(reached.scope_eq_root level left).1 top, named⟩)
      simp only [bind, Except.bind, Except.map, readAll_singleton, step]
      cases s.step config (lineAt ls k) <;> rfl

theorem free_of_readAll_behind (ht : t.get? root = some r) (le : k ≤ ls.length)
    (ok : ((State.start name).behind t entry).readAll config (ls.take k) = .ok s') :
    ∀ i, i < k → ∀ x, rootName? ls i = some x → r.children.lookup x = none := by
  induction k generalizing s' with
  | zero => exact fun i lt => absurd lt (Nat.not_lt_zero i)
  | succ k ih =>
    rw [take_succ_lines le, State.readAll_append] at ok
    obtain ⟨v, before, last⟩ := bind_eq_ok.1 ok
    have free := ih (Nat.le_of_lt le) before
    rw [readAll_behind ht entry (Nat.le_of_lt le) free] at before
    obtain ⟨s, read, rfl⟩ := map_eq_ok.1 before
    rw [readAll_singleton, atLine_eq_ok] at last
    intro i lt x declared
    rcases Nat.lt_succ_iff_lt_or_eq.1 lt with lt | rfl
    · exact free i lt x declared
    · by_contra taken
      have level := State.le_of_step last
      rw [State.length_behind] at level
      have reached := Reached.of_readAll (Nat.le_of_lt le) read
      obtain ⟨u, left, -⟩ := reached.movable.leaveTo ht entry (indent ls i)
      obtain ⟨top, named⟩ := rootName?_eq_some.1 declared
      rw [reached.movable.step_taken ht entry config level left
        ((reached.scope_eq_root level left).2 top) named taken] at last
      cases last

theorem readAll_behind_taken {i : Nat} {x : String} (ht : t.get? root = some r)
    (entry : List Stmt) (lt : i < ls.length)
    (ok : (State.start name).readAll config ls = .ok s)
    (free : ∀ j, j < i → ∀ x, rootName? ls j = some x → r.children.lookup x = none)
    (again : rootName? ls i = some x) (taken : r.children.lookup x ≠ none) :
    ((State.start name).behind t entry).readAll config ls =
      .error ⟨number ls i, .nameTaken x⟩ := by
  obtain ⟨_, upto⟩ := readAll_take_isOk ok (i + 1)
  rw [take_succ_lines lt, State.readAll_append] at upto
  obtain ⟨v, read, last⟩ := bind_eq_ok.1 upto
  rw [readAll_singleton, atLine_eq_ok] at last
  have le := State.le_of_step last
  have reached := Reached.of_readAll (Nat.le_of_lt lt) read
  obtain ⟨u, left, -⟩ := reached.movable.leaveTo ht entry (indent ls i)
  obtain ⟨top, named⟩ := rootName?_eq_some.1 again
  have refused := reached.movable.step_taken ht entry config le left
    ((reached.scope_eq_root le left).2 top) named taken
  have here : ((State.start name).behind t entry).readAll config (ls.take (i + 1)) =
      .error ⟨number ls i, .nameTaken x⟩ := by
    rw [take_succ_lines lt, State.readAll_append, readAll_behind ht entry (Nat.le_of_lt lt) free,
      read]
    exact (readAll_singleton _ _).trans (congrArg (atLine _) refused)
  have all := readAll_append_of_error here (ls.drop (i + 1))
  rwa [List.take_append_drop] at all

theorem done_behind (ht : t.get? root = some r) (h : s.Movable) {t' u' : SymbolTree}
    (ha : t.setFunction root ⟨[], entry.reverse⟩ = .ok t') (hb : s.done = .ok u') :
    (s.behind t entry).done = .ok (t'.graft u') := by
  obtain ⟨v, hv, movable, there⟩ := h.leaveTo ht entry 0
  obtain ⟨_, same, set⟩ := State.done_eq_ok.1 hb
  cases hv.symm.trans same
  obtain ⟨p, hp⟩ := movable.get?_root
  refine State.done_eq_ok.2 ⟨_, there, ?_⟩
  rw [State.behind, List.reverse_append]
  exact setFunction_graft_root ht hp ha set

/-- The line at `i` declares a name in the root that these symbols have there. -/
def Redeclares (t : SymbolTree) (ls : List Line) (i : Nat) (x : String) : Prop :=
  rootName? ls i = some x ∧ t.isUsed root x

theorem afterElse?_of_head {ws : List Lexeme}
    (h : ∀ w, ws.head? = some w → w.kind ≠ .keyword .else_) : afterElse? ws = none := by
  match ws with
  | [] => rfl
  | first :: rest => exact if_neg (h first rfl)

theorem symbolsOf_append_eq (ha : symbolsOf config name a = .ok t)
    (plain : ∀ l, b.head? = some l → l.indentation = 0 ∧ afterElse? l.lexemes = none) :
    ∃ v entry, v.WellFormed ∧ v.setFunction root ⟨[], entry.reverse⟩ = .ok t ∧
      symbolsOf config name (a ++ b) =
        ((State.start name).behind v entry).readAll config b >>= fun s => atLine 0 s.done := by
  obtain ⟨s, read, done⟩ := bind_eq_ok.1 ha
  obtain ⟨f, left, set⟩ := State.done_eq_ok.1 (atLine_eq_ok.1 done)
  have sound := ((State.Sound.start name).readAll config a).1 s read
  have wf := (State.sound_leaveTo sound left).wellFormed
  have alone : (State.start name).behind f.symbols f.entry = f := by
    have flat := State.length_leaveTo left
    rw [Nat.min_zero, List.length_eq_zero_iff] at flat
    obtain ⟨symbols, entry, blocks⟩ := f
    cases flat
    rw [State.behind, State.start, graft_new wf]
    rfl
  refine ⟨f.symbols, f.entry, wf, set, ?_⟩
  rw [alone, symbolsOf, State.readAll_append, read]
  cases b with
  | nil => exact congrArg (atLine 0) (State.done_of_leaveTo left)
  | cons l rest =>
    obtain ⟨level, other⟩ := plain l rfl
    have first : s.step config l = f.step config l := State.step_of_leaveTo left level other
    rw [readAll_cons, ← first, ← readAll_cons]
    rfl

theorem isUsed_root_of_setFunction {v : SymbolTree} {body : List Stmt} (hr : v.get? root = some r)
    (h : v.setFunction root ⟨[], body⟩ = .ok t) {x : String} :
    t.isUsed root x ↔ r.children.lookup x ≠ none := by
  obtain ⟨_, same, -, get⟩ := setFunction_eq_ok h
  cases hr.symm.trans same
  have known := get root
  rw [if_pos rfl] at known
  have used := isUsed_iff (x := x) known
  exact used

theorem apart_iff {v : SymbolTree} (hr : v.get? root = some r)
    (set : v.setFunction root ⟨[], entry.reverse⟩ = .ok t) (hu : symbolsOf config name b = .ok u) :
    t.Apart u ↔
      ∀ i, i < b.length → ∀ x, rootName? b i = some x → r.children.lookup x = none := by
  have used (x : String) : u.isUsed root x = false ↔
      ∀ i, i < b.length → rootName? b i ≠ some x := by
    rw [← Bool.not_eq_true, isUsed_root_iff hu]
    push Not
    rfl
  constructor
  · intro apart i lt x declared
    by_contra taken
    have free := apart x ((isUsed_root_of_setFunction hr set).2 taken)
    exact (used x).1 free i lt declared
  · intro free x taken
    refine (used x).2 fun i lt declared => ?_
    exact (isUsed_root_of_setFunction hr set).1 taken (free i lt x declared)

/-- Lines are accepted behind others if and only if both are by themselves and have no name in
common in the root; they come to the two trees under one root then. -/
theorem symbolsOf_append_eq_ok
    (plain : ∀ l, b.head? = some l → l.indentation = 0 ∧ afterElse? l.lexemes = none) :
    symbolsOf config name (a ++ b) = .ok w ↔ ∃ t u, symbolsOf config name a = .ok t ∧
      symbolsOf config name b = .ok u ∧ t.Apart u ∧ w = t.graft u := by
  constructor
  · intro ok
    obtain ⟨s, read, -⟩ := bind_eq_ok.1 ok
    rw [State.readAll_append] at read
    obtain ⟨s₁, first, -⟩ := bind_eq_ok.1 read
    obtain ⟨t, ha⟩ := exists_symbolsOf first
    obtain ⟨v, entry, wf, set, whole⟩ := symbolsOf_append_eq ha plain
    obtain ⟨r, hr⟩ := get?_isSome_of_lt wf.root_lt
    rw [whole] at ok
    obtain ⟨s', behind, done⟩ := bind_eq_ok.1 ok
    rw [← List.take_length (l := b)] at behind
    have free := free_of_readAll_behind hr (Nat.le_refl _) behind
    rw [readAll_behind hr entry (Nat.le_refl _) free] at behind
    obtain ⟨s, alone, rfl⟩ := map_eq_ok.1 behind
    have reached := Reached.of_readAll (Nat.le_refl _) alone
    rw [List.take_length] at alone
    obtain ⟨u, hu⟩ := exists_symbolsOf alone
    obtain ⟨_, same, ends⟩ := bind_eq_ok.1 hu
    cases alone.symm.trans same
    have both := done_behind hr reached.movable set (atLine_eq_ok.1 ends)
    rw [both] at done
    exact ⟨t, u, ha, hu, (apart_iff hr set hu).2 free, (Except.ok.inj (atLine_eq_ok.1 done)).symm⟩
  · rintro ⟨t, u, ha, hu, apart, rfl⟩
    obtain ⟨v, entry, wf, set, whole⟩ := symbolsOf_append_eq ha plain
    obtain ⟨r, hr⟩ := get?_isSome_of_lt wf.root_lt
    obtain ⟨s, alone, ends⟩ := bind_eq_ok.1 hu
    rw [← List.take_length (l := b)] at alone
    have reached := Reached.of_readAll (Nat.le_refl _) alone
    have behind : ((State.start name).behind v entry).readAll config (b.take b.length) = _ :=
      readAll_behind hr entry (Nat.le_refl _) ((apart_iff hr set hu).1 apart)
    rw [alone, List.take_length] at behind
    rw [whole, behind]
    exact atLine_eq_ok.2 (done_behind hr reached.movable set (atLine_eq_ok.1 ends))

/-- Lines in two parts, the second of which begins at the margin and with no else line. If both
are accepted and have no name in common in the root, they come to the two trees under one root;
if they do have one, the first line that declares such a name again is refused. If the second
part has an error and declares no such name, both together have that error. -/
theorem symbolsOf_append (config : Config) (name : String) (a b : List Line) (t : SymbolTree)
    (ha : symbolsOf config name a = .ok t)
    (plain : ∀ l, b.head? = some l → l.indentation = 0 ∧
      ∀ w, l.lexemes.head? = some w → w.kind ≠ .keyword .else_) :
    (∀ u, symbolsOf config name b = .ok u → (∀ x, t.isUsed root x → u.isUsed root x = false) →
      symbolsOf config name (a ++ b) = .ok (t.graft u)) ∧
    (∀ u x, symbolsOf config name b = .ok u → t.isUsed root x → u.isUsed root x →
      ∃ i y, i < b.length ∧ Redeclares t b i y ∧ (∀ j z, j < i → ¬ Redeclares t b j z) ∧
        symbolsOf config name (a ++ b) = .error ⟨number b i, .nameTaken y⟩) ∧
    ∀ e, symbolsOf config name b = .error e → (∀ i x, ¬ Redeclares t b i x) →
      symbolsOf config name (a ++ b) = .error e := by
  have plain' (l : Line) (first : b.head? = some l) :
      l.indentation = 0 ∧ afterElse? l.lexemes = none :=
    ⟨(plain l first).1, afterElse?_of_head (plain l first).2⟩
  obtain ⟨v, entry, wf, set, whole⟩ := symbolsOf_append_eq ha plain'
  obtain ⟨r, hr⟩ := get?_isSome_of_lt wf.root_lt
  have free {k : Nat} (distinct : ∀ i x, i < k → ¬ Redeclares t b i x) :
      ∀ i, i < k → ∀ x, rootName? b i = some x → r.children.lookup x = none := by
    intro i lt x declared
    by_contra taken
    exact distinct i x lt ⟨declared, (isUsed_root_of_setFunction hr set).2 taken⟩
  have alone (distinct : ∀ i x, i < b.length → ¬ Redeclares t b i x) :
      ((State.start name).behind v entry).readAll config b =
        ((State.start name).readAll config b).map (State.behind v entry) := by
    rw [← List.take_length (l := b)]
    exact readAll_behind hr entry (Nat.le_refl _) (free distinct)
  refine ⟨fun u hu disjoint => ?_, fun u x hu inA inB => ?_, fun e he distinct => ?_⟩
  · exact (symbolsOf_append_eq_ok plain').2 ⟨t, u, ha, hu, disjoint, rfl⟩
  · obtain ⟨n, lt, declared⟩ := (isUsed_root_iff hu x).1 inB
    have some : ∃ i y, Redeclares t b i y := ⟨n, x, declared, inA⟩
    obtain ⟨i, ⟨y, again, used⟩, least⟩ :
        ∃ i, (∃ y, Redeclares t b i y) ∧ ∀ j, j < i → ¬ ∃ z, Redeclares t b j z := by
      classical exact ⟨Nat.find some, Nat.find_spec some, fun j => Nat.find_min some⟩
    have lt' : i < b.length :=
      Nat.lt_of_le_of_lt (Nat.not_lt.1 fun less => least n less ⟨x, declared, inA⟩) lt
    have first (j : Nat) (z : String) (less : j < i) : ¬ Redeclares t b j z :=
      fun h => least j less ⟨z, h⟩
    obtain ⟨s, read, -⟩ := bind_eq_ok.1 hu
    refine ⟨i, y, lt', ⟨again, used⟩, first, ?_⟩
    rw [whole, readAll_behind_taken hr entry lt' read (free first) again
      ((isUsed_root_of_setFunction hr set).1 used)]
    rfl
  · rw [whole, alone fun i x _ => distinct i x, symbolsOf_eq_error.1 he]
    rfl

theorem symbolsOf_append_open :
    let class_ (n : Nat) : Line := ⟨n, 0, [⟨.keyword .class_, none⟩, .ofWord "X"]⟩
    let function (n d : Nat) (x : String) : Line := ⟨n, d, [⟨.keyword .function, none⟩, .ofWord x]⟩
    let return_ (n d : Nat) : Line := ⟨n, d, [⟨.keyword .return_, none⟩]⟩
    let first := [class_ 1, function 2 1 "f", return_ 3 2]
    let other := [function 4 0 "g", return_ 5 1]
    let again := other ++ [class_ 6]
    let deep := [return_ 4 0, return_ 5 7]
    ∃ t u v, (symbolsOf {} "m" first = .ok t ∧ symbolsOf {} "m" other = .ok u ∧
        (∀ x, t.isUsed root x → u.isUsed root x = false) ∧
        symbolsOf {} "m" (first ++ other) = .ok (t.graft u)) ∧
      (symbolsOf {} "m" again = .ok v ∧ t.isUsed root "X" ∧ v.isUsed root "X" ∧
        ∃ i x, i < 3 ∧ Redeclares t again i x ∧ (∀ j y, j < i → ¬ Redeclares t again j y) ∧
          symbolsOf {} "m" (first ++ again) = .error ⟨number again i, .nameTaken x⟩) ∧
      symbolsOf {} "m" deep = .error ⟨5, .unexpectedIndentation⟩ ∧
        (∀ i x, ¬ Redeclares t deep i x) ∧
        symbolsOf {} "m" (first ++ deep) = .error ⟨5, .unexpectedIndentation⟩ := by
  intro class_ function return_ first other again deep
  obtain ⟨t, ht⟩ : ∃ t, symbolsOf {} "m" first = .ok t := ⟨_, rfl⟩
  obtain ⟨u, hu⟩ : ∃ u, symbolsOf {} "m" other = .ok u := ⟨_, rfl⟩
  obtain ⟨v, hv⟩ : ∃ v, symbolsOf {} "m" again = .ok v := ⟨_, rfl⟩
  have fails : symbolsOf {} "m" deep = .error ⟨5, .unexpectedIndentation⟩ := rfl
  have usedX : t.isUsed root "X" := by cases ht; rfl
  have usedX' : v.isUsed root "X" := by cases hv; rfl
  have disjoint (x : String) (used : t.isUsed root x) : u.isUsed root x = false := by
    have only : x = "X" := by
      by_contra ne
      cases ht
      have missing : List.lookup x [("X", 1)] = none := by simp [List.lookup, beq_eq_false_iff_ne.2 ne]
      have absurd : (List.lookup x [("X", 1)]).isSome := used
      simp [missing] at absurd
    cases hu
    rw [only]
    rfl
  have none (i : Nat) (x : String) : ¬ Redeclares t deep i x := by
    rintro ⟨declared, -⟩
    have named := (rootName?_eq_some.1 declared).2
    rcases i with _ | _ | i <;> cases named
  have named (l : Line) (h : some (function 4 0 "g") = some l) :
      l.indentation = 0 ∧ ∀ w, l.lexemes.head? = some w → w.kind ≠ .keyword .else_ := by
    cases h
    exact ⟨rfl, by simp [function]⟩
  have plain (l : Line) (h : some (return_ 4 0) = some l) :
      l.indentation = 0 ∧ ∀ w, l.lexemes.head? = some w → w.kind ≠ .keyword .else_ := by
    cases h
    exact ⟨rfl, by simp [return_]⟩
  refine ⟨t, u, v, ⟨ht, hu, disjoint, ?_⟩, ⟨hv, usedX, usedX', ?_⟩, fails, none, ?_⟩
  · exact (symbolsOf_append {} "m" first other t ht named).1 u hu disjoint
  · exact (symbolsOf_append {} "m" first again t ht named).2.1 v "X" hv usedX usedX'
  · exact (symbolsOf_append {} "m" first deep t ht plain).2.2 _ fails none

/-- A class in an if block is declared in the root, though its line is indented: behind another
class of that name it is refused, before the error that the second part has by itself. -/
theorem symbolsOf_append_nested :
    let class_ (n d : Nat) : Line := ⟨n, d, [⟨.keyword .class_, none⟩, .ofWord "X"]⟩
    let first := [class_ 1 0]
    let second : List Line := [⟨2, 0, [⟨.keyword .if_, none⟩, .ofWord "a"]⟩, class_ 3 1,
      ⟨4, 5, [⟨.keyword .return_, none⟩]⟩]
    (∀ l, second.head? = some l → l.indentation = 0 ∧
      ∀ w, l.lexemes.head? = some w → w.kind ≠ .keyword .else_) ∧
    (∃ t, symbolsOf {} "m" first = .ok t ∧
      ∀ i x, i < second.length → indent second i = 0 →
        declaredName? (lineAt second i).lexemes = some x → t.isUsed root x = false) ∧
    symbolsOf {} "m" second = .error ⟨4, .unexpectedIndentation⟩ ∧
    symbolsOf {} "m" (first ++ second) = .error ⟨3, .nameTaken "X"⟩ := by
  intro class_ first second
  have fails : symbolsOf {} "m" second = .error ⟨4, .unexpectedIndentation⟩ := by cbv
  have refused : symbolsOf {} "m" (first ++ second) = .error ⟨3, .nameTaken "X"⟩ := by cbv
  obtain ⟨t, ht⟩ : ∃ t, symbolsOf {} "m" first = .ok t := ⟨_, rfl⟩
  refine ⟨fun l h => ?_, ⟨t, ht, fun i x lt margin named => ?_⟩, fails, refused⟩
  · cases h
    exact ⟨rfl, by simp⟩
  rcases i with _ | _ | _ | i
  · cases named
  · cases margin
  · cases named
  · exact absurd lt (by simp [second])

end Module
end Offside
