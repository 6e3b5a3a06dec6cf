import Mathlib
import Offside.Proofs.Module.Trace
import Offside.Proofs.Symbol.Edit

/-!
The symbols of a module come of edits: whatever its lines say, they declare names and give bodies to
functions, and do nothing else to the symbols. So what every edit keeps holds of every module. One
such thing is the order of the names in each scope.
-/

namespace Offside

namespace SymbolTree

def Sorted (t : SymbolTree) : Prop :=
  ∀ id s, t.get? id = some s → (s.children.map (·.1)).Pairwise (· < ·)

variable {t u : SymbolTree} {scope id : Nat} {x : String} {kind : SymbolKind}

theorem insertChild_sorted {children : List (String × Nat)}
    (sorted : (children.map (·.1)).Pairwise (· < ·)) (free : x ∉ children.map (·.1)) :
    ((Symbol.insertChild x id children).map (·.1)).Pairwise (· < ·) := by
  induction children with
  | nil => exact List.pairwise_singleton _ _
  | cons c rest ih =>
    rw [List.map_cons, List.mem_cons, not_or] at free
    rw [Symbol.insertChild]
    split
    · next less =>
      rw [List.map_cons]
      refine List.pairwise_cons.2 ⟨fun y mem => ?_, sorted⟩
      rcases List.mem_cons.1 mem with rfl | mem
      · exact less
      · exact lt_trans less (List.rel_of_pairwise_cons sorted mem)
    · next notLess =>
      have less : c.1 < x := lt_of_le_of_ne (not_lt.1 notLess) (Ne.symm free.1)
      rw [List.map_cons]
      refine List.pairwise_cons.2 ⟨fun y mem => ?_, ih sorted.of_cons free.2⟩
      obtain ⟨child, hchild, rfl⟩ := List.mem_map.1 mem
      rcases Symbol.mem_insertChild.1 hchild with rfl | old
      · exact less
      · exact List.rel_of_pairwise_cons sorted (List.mem_map.2 ⟨child, old, rfl⟩)

namespace Sorted

theorem new (name : String) : (new name).Sorted := by
  intro id s known
  rw [get?_new] at known
  split at known
  · cases known
    exact .nil
  · cases known

theorem edit (h : t.Sorted) (e : Edit) : (t.edit e).Sorted := by
  cases e with
  | declare scope x kind =>
    rw [SymbolTree.edit]
    split
    · next u id made =>
      obtain ⟨s, known, free, -, get⟩ := declare_eq_ok made
      intro i s' known'
      rw [get] at known'
      split at known'
      · cases known'
        exact .nil
      · split at known'
        · cases known'
          exact insertChild_sorted (h _ _ known) (lookup_eq_none.1 free)
        · exact h _ _ known'
    · exact h
  | replace id f =>
    rw [SymbolTree.edit]
    split
    · next u made =>
      obtain ⟨s, known, -, get⟩ := setFunction_eq_ok made
      intro i s' known'
      rw [get] at known'
      split at known'
      · have sorted := h _ _ known
        cases known'
        exact sorted
      · exact h _ _ known'
    · exact h

theorem editAll (h : t.Sorted) (es : List Edit) : (t.editAll es).Sorted := by
  induction es generalizing t with
  | nil => exact h
  | cons e es ih => exact ih (h.edit e)

end Sorted

def Edited (name : String) (t : SymbolTree) : Prop :=
  ∃ es, t = (new name).editAll es

namespace Edited

variable {name : String}

theorem new (name : String) : Edited name (.new name) := ⟨[], rfl⟩

theorem edit (h : Edited name t) (e : Edit) : Edited name (t.edit e) := by
  obtain ⟨es, rfl⟩ := h
  exact ⟨es ++ [e], by simp [editAll]⟩

theorem declare (h : Edited name t) (made : t.declare scope x kind = .ok (u, id)) :
    Edited name u := by
  have edited := h.edit (.declare scope x kind)
  rwa [SymbolTree.edit, made] at edited

theorem setFunction {f : Function} (h : Edited name t) (made : t.setFunction id f = .ok u) :
    Edited name u := by
  have edited := h.edit (.replace id f)
  rwa [SymbolTree.edit, made] at edited

theorem sorted (h : Edited name t) : t.Sorted := by
  obtain ⟨es, rfl⟩ := h
  exact (Sorted.new name).editAll es

end Edited

end SymbolTree

namespace Module

open SymbolTree

namespace State

variable {config : Config} {line : Nat} {name : String} {s s' t : State} {ws : List Lexeme}

theorem finish_edited {b : Block} (h : Edited name s.symbols) (ok : s.finish b = .ok t) :
    Edited name t.symbols := by
  obtain ⟨opener, line, body⟩ := b
  cases opener with
  | class_ id =>
    cases ok
    exact h
  | function id arguments =>
    obtain ⟨symbols, made, eq⟩ := bind_eq_ok.1 ok
    cases eq
    exact h.setFunction made
  | _ =>
    cases ok
    rw [symbols_add]
    exact h

theorem leaveMany_edited {n : Nat} (h : Edited name s.symbols) (ok : s.leaveMany n = .ok t) :
    Edited name t.symbols := by
  induction n generalizing s with
  | zero =>
    cases ok
    exact h
  | succ n ih =>
    obtain ⟨u, hu, ok⟩ := bind_eq_ok.1 ok
    refine ih ?_ ok
    unfold leave at hu
    split at hu
    · cases hu
      exact h
    · next b outer _ => exact finish_edited (s := { s with blocks := outer }) h hu

theorem declareArguments_edited {id : Nat} {arguments : List String} {t u : SymbolTree}
    (h : Edited name t) (ok : declareArguments id arguments t = .ok u) : Edited name u := by
  induction arguments generalizing t with
  | nil =>
    cases ok
    exact h
  | cons x arguments ih =>
    rw [declareArguments_cons] at ok
    obtain ⟨⟨v, j⟩, made, ok⟩ := bind_eq_ok.1 ok
    exact ih (h.declare made) ok

theorem enter_edited {t : SymbolTree} {maxDepth : Nat} {opener : Opener} (h : Edited name t)
    (ok : { s with symbols := t }.enter maxDepth opener line = .ok s') :
    Edited name s'.symbols := by
  obtain ⟨-, rfl⟩ := enter_eq_ok.1 ok
  exact h

theorem perform_edited {hd : Header} (h : Edited name s.symbols)
    (ok : s.perform config line hd = .ok s') : Edited name s'.symbols := by
  cases hd using Header.byEffect with
  | opens hd o opens => exact enter_edited h ((perform_opener opens).1 ok).2
  | leaf hd leaf =>
    obtain ⟨stmt, leaf⟩ := leaf line
    obtain ⟨-, rfl⟩ := (perform_leaf leaf).1 ok
    rw [symbols_add]
    exact h
  | class_ x =>
    obtain ⟨u, id, v, hu, hv, entered⟩ := perform_class.1 ok
    exact enter_edited (declareArguments_edited (h.declare hu) hv) entered
  | function x arguments =>
    obtain ⟨u, id, v, hu, hv, entered⟩ := perform_function.1 ok
    exact enter_edited (declareArguments_edited (h.declare hu) hv) entered
  | elseIf | else_ => cases ok

theorem step_edited {l : Line} (h : Edited name s.symbols) (ok : s.step config l = .ok s') :
    Edited name s'.symbols := by
  unfold step at ok
  split at ok
  · cases ok
  obtain ⟨t, ht, ok⟩ := bind_eq_ok.1 ok
  have edited := leaveMany_edited h ht
  split at ok
  · next arm chain outer rest found _ =>
    obtain ⟨-, same, -⟩ := openArm?_eq_some found
    rw [← same] at edited
    rw [otherwise_eq_parse] at ok
    obtain ⟨hd, -, ok⟩ := bind_eq_ok.1 ok
    cases hd with
    | elseIf | else_ => exact enter_edited edited ok
    | _ => cases ok
  · obtain ⟨u, hu, ok⟩ := bind_eq_ok.1 ok
    have edited := leaveMany_edited edited hu
    cases words : l.lexemes with
    | nil =>
      rw [words] at ok
      cases ok
      exact edited
    | cons first rest =>
      rw [words, read_cons] at ok
      obtain ⟨hd, -, ok⟩ := bind_eq_ok.1 ok
      exact perform_edited edited ok

theorem readAll_edited {lines : List Line} (h : Edited name s.symbols)
    (ok : s.readAll config lines = .ok t) : Edited name t.symbols := by
  induction lines generalizing s with
  | nil =>
    cases ok
    exact h
  | cons l lines ih =>
    rw [readAll, List.foldlM_cons] at ok
    obtain ⟨u, hu, ok⟩ := bind_eq_ok.1 ok
    exact ih (step_edited h (atLine_eq_ok.1 hu)) ok

end State

theorem symbolsOf_edited {config : Config} {name : String} {lines : List Line} {t : SymbolTree}
    (ok : symbolsOf config name lines = .ok t) : Edited name t := by
  obtain ⟨s, read, ok⟩ := bind_eq_ok.1 ok
  obtain ⟨u, hu, ok⟩ := bind_eq_ok.1 (atLine_eq_ok.1 ok)
  have edited := State.leaveMany_edited (State.readAll_edited (.new name) read) hu
  exact edited.setFunction ok

end Module

end Offside
