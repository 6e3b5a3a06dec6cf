import Offside.Proofs.Symbol.WellFormed
import Offside.Symbol.Outline

/-!
Outlines of well-formed symbols: every symbol has one. What is declared in a scope has a number
larger than the scope's, so the outline goes down to an end.
-/

namespace Offside

theorem mapM_isOk {ε α β : Type} {f : α → Except ε β} {xs : List α}
    (h : ∀ x ∈ xs, ∃ y, f x = .ok y) : ∃ ys, xs.mapM f = .ok ys := by
  induction xs with
  | nil => exact ⟨[], rfl⟩
  | cons x xs ih =>
    obtain ⟨y, hy⟩ := h x (List.mem_cons_self ..)
    obtain ⟨ys, hys⟩ := ih fun x hx => h x (List.mem_cons_of_mem _ hx)
    exact ⟨y :: ys, by simp only [List.mapM_cons, hy, hys]; rfl⟩

namespace SymbolTree

variable {t : SymbolTree} {id : Nat} {s : Symbol} {child : String × Nat}

theorem lt_size_of_declared {d : Declaration} (h : t.declarations[id]? = some d) :
    id < t.size := by
  rw [← length_declarations]
  exact (List.getElem?_eq_some_iff.1 h).1

theorem WellFormed.root_lt (wf : t.WellFormed) : SymbolTree.root < t.size := by
  obtain ⟨name, declared⟩ := wf.root
  exact lt_size_of_declared declared

theorem get?_isSome_of_lt (h : id < t.size) : ∃ s, t.get? id = some s :=
  ⟨_, Array.getElem?_eq_getElem h⟩

theorem WellFormed.child_lt (wf : t.WellFormed) (known : t.get? id = some s)
    (mem : child ∈ s.children) : id < child.2 ∧ child.2 < t.size := by
  obtain ⟨d, declared, parent, -⟩ := (wf.child known).1 mem
  have notRoot : child.2 ≠ SymbolTree.root := by
    intro eq
    obtain ⟨name, isRoot⟩ := wf.root
    rw [eq, isRoot] at declared
    cases declared
    cases parent
  obtain ⟨p, lt, parent'⟩ := wf.parent_lt declared notRoot
  obtain rfl := Option.some.inj (parent.symm.trans parent')
  exact ⟨lt, lt_size_of_declared declared⟩

theorem WellFormed.outline_isOk (wf : t.WellFormed) (lt : id < t.size) :
    ∃ o, t.outline id = .ok o := by
  induction n : t.size - id using Nat.strongRecOn generalizing id with
  | _ n ih =>
    obtain ⟨s, known⟩ := get?_isSome_of_lt lt
    have children : ∀ child ∈ s.children, ∃ o,
        (if id < child.2 then t.outline child.2 else .error (.unknownSymbol child.2)) =
          (.ok o : Except Fault Outline) := by
      intro child mem
      obtain ⟨above, lt'⟩ := wf.child_lt known mem
      rw [if_pos above]
      exact ih _ (by omega) lt' rfl
    obtain ⟨outlines, eq⟩ := mapM_isOk children
    rw [outline_known known, eq]
    exact ⟨_, rfl⟩

end SymbolTree

end Offside
