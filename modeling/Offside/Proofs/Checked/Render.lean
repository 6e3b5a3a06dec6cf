import Mathlib
import Offside.Module
import Offside.Proofs.Checked.Run

/-!
Modules rendered from the numbers of their symbols. Main statement: a module whose outline is known
is rendered by following the numbers, none of which is looked up in vain, and to the same text.
-/

namespace Offside

namespace SymbolTree

mutual

def sketch (t : SymbolTree) (depth id : Nat) : Option (List Row) := do
  let s ← t.get? id
  if s.kind = .variable_ then return []
  else
    let scope ← t.get? id
    let inner ← t |>.sketchAll (depth + 1) scope.children
    return ⟨depth, Outline.head s⟩ :: (Stmt.bodyRows (depth + 1) s.body ++ inner)
partial_fixpoint

def sketchAll (t : SymbolTree) (depth : Nat) (children : List (String × Nat)) :
    Option (List Row) :=
  match children with
  | [] => return []
  | child :: children => do
    let first ← t |>.sketch depth child.2
    let others ← t |>.sketchAll depth children
    return first ++ others
partial_fixpoint

end

variable {t : SymbolTree}

theorem sketchAll_eq {f : String × Nat → Except Fault Outline} (depth : Nat)
    {children : List (String × Nat)} {os : List Outline} (h : children.mapM f = .ok os)
    (each : ∀ child ∈ children, ∀ o, f child = .ok o →
      t.sketch depth child.2 = some (o.rows depth)) :
    t.sketchAll depth children = some (Outline.rowsAll depth os) := by
  induction children generalizing os with
  | nil =>
    cases h
    rw [sketchAll]
    rfl
  | cons child children ih =>
    rw [List.mapM_cons] at h
    obtain ⟨o, first, h⟩ := bind_eq_ok.1 h
    obtain ⟨os, others, h⟩ := bind_eq_ok.1 h
    cases h
    rw [List.forall_mem_cons] at each
    rw [sketchAll, each.1 o first, ih others each.2]
    rfl

theorem sketch_eq {o : Outline} {id : Nat} (h : t.outline id = .ok o) (depth : Nat) :
    t.sketch depth id = some (o.rows depth) := by
  induction n : t.size - id using Nat.strongRecOn generalizing id o depth with
  | _ n ih =>
    cases known : t.get? id with
    | none =>
      rw [outline_unknown known] at h
      cases h
    | some s =>
      rw [outline_known known] at h
      obtain ⟨os, inner, h⟩ := bind_eq_ok.1 h
      cases h
      have below := sketchAll_eq (depth + 1) inner fun child _ o ok => by
        split at ok
        · next above =>
          have lt := get?_lt known
          exact ih _ (by omega) ok _ rfl
        · cases ok
      rw [sketch, known, Outline.rows]
      simp only [Option.bind_eq_bind, Option.bind_some, below]
      split <;> rfl

end SymbolTree

namespace Module

def rendering (m : Module) : Option String := do
  let entry ← m.symbols.get? SymbolTree.root
  let scope ← m.symbols.get? SymbolTree.root
  let inner ← m.symbols.sketchAll 1 scope.children
  return Row.renderAll (⟨0, "module " ++ m.name⟩ :: (Stmt.bodyRows 1 entry.body ++ inner))

theorem rendering_eq {m : Module} {text : String} (h : m.text = .ok text) :
    m.rendering = some text := by
  obtain ⟨o, outlined, h⟩ := bind_eq_ok.1 h
  cases h
  cases known : m.symbols.get? SymbolTree.root with
  | none =>
    rw [outline, SymbolTree.outline_unknown known] at outlined
    cases outlined
  | some s =>
    rw [outline, SymbolTree.outline_known known] at outlined
    obtain ⟨os, inner, outlined⟩ := bind_eq_ok.1 outlined
    cases outlined
    rw [rendering, known]
    have below := SymbolTree.sketchAll_eq 1 inner fun child _ o ok => by
      split at ok
      · exact SymbolTree.sketch_eq ok 1
      · cases ok
    simp only [Option.bind_eq_bind, Option.bind_some, below]
    rfl

end Module

end Offside
