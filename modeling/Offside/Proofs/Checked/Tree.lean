import Mathlib
import Offside.Proofs.Checked.Run
import Offside.Proofs.Symbol.Outline
import Offside.Proofs.Symbol.Qualified

/-!
Symbols by their numbers alone. Every use of a number is that of a symbol that is there, and the way
up from a symbol comes to an end. Main statements: on well-formed symbols these steps are defined,
and do what is done by those that look first.
-/

namespace Offside.SymbolTree

def change (t : SymbolTree) (id : Nat) (g : Symbol → Symbol) : Option SymbolTree := do
  let s ← t.get? id
  return ⟨t.symbols.setIfInBounds id (g s)⟩

/-- Declares a name. The symbol comes first, and is then entered in its scope. -/
def enroll (t : SymbolTree) (scope : Nat) (name : String) (kind : SymbolKind) :
    Option (Except Fault (SymbolTree × Nat)) := do
  let s ← t.get? scope
  if (s.children.lookup name).isSome then return .error (.nameTaken name)
  else
    let grown : SymbolTree := ⟨t.symbols.push (.fresh name kind (some scope))⟩
    let entered ← grown.change scope fun s =>
      { s with children := Symbol.insertChild name t.size s.children }
    return .ok (entered, t.size)

def redefine (t : SymbolTree) (id : Nat) (g : Function → Function) : Option SymbolTree :=
  t.change id fun s => { s with function := s.function.map g }

/-- The names from a symbol up, behind those gathered below it. -/
def ascend (t : SymbolTree) (names : List String) (id : Nat) : Option (List String) := do
  let s ← t.get? id
  match s.parent with
  | none => return names ++ [s.name]
  | some parent => t |>.ascend (names ++ [s.name]) parent
partial_fixpoint

def address (t : SymbolTree) (id : Nat) : Option String := do
  return ".".intercalate (← t.ascend [] id).reverse

variable {t u : SymbolTree} {scope id : Nat} {s : Symbol}

theorem enroll_eq (lt : scope < t.size) (name : String) (kind : SymbolKind) :
    t.enroll scope name kind = some (t.declare scope name kind) := by
  obtain ⟨s, known⟩ := get?_isSome_of_lt lt
  rw [enroll, declare, known]
  simp only [Option.bind_eq_bind, Option.bind_some]
  split
  · rfl
  · have here : scope < t.symbols.size := lt
    have old : (⟨t.symbols.push (.fresh name kind (some scope))⟩ : SymbolTree).get? scope =
        some s := by
      rw [← known, get?, get?, Array.getElem?_push, if_neg (Nat.ne_of_lt here)]
    have swap (x y : Symbol) : (t.symbols.push y).setIfInBounds scope x =
        (t.symbols.setIfInBounds scope x).push y := by
      refine Array.ext_getElem? fun i => ?_
      simp only [Array.getElem?_push, Array.getElem?_setIfInBounds, Array.size_push,
        Array.size_setIfInBounds]
      grind
    rw [change, old]
    simp only [Option.bind_eq_bind, Option.bind_some, swap]
    rfl

theorem redefine_eq {f : Function} {g : Function → Function} (h : t.setFunction id f = .ok u)
    (gives : ∀ was, t.function? id = some was → g was = f) : t.redefine id g = some u := by
  unfold setFunction at h
  split at h
  · next s known =>
    split at h
    · next isFunction =>
      obtain ⟨was, eq⟩ := Option.isSome_iff_exists.1 isFunction
      have found : t.function? id = some was := by rw [function?, known]; exact eq
      cases h
      rw [redefine, change, known]
      simp only [Option.bind_eq_bind, Option.bind_some, eq, Option.map_some, gives was found]
      rfl
    · cases h
  · cases h

theorem WellFormed.ascend_eq (wf : t.WellFormed) (lt : id < t.size) (names : List String) :
    t.ascend names id = some (names ++ (t.path id).reverse) := by
  induction id using Nat.strongRecOn generalizing names with
  | _ id ih =>
    obtain ⟨s, known⟩ := get?_isSome_of_lt lt
    rw [ascend, known]
    simp only [Option.bind_eq_bind, Option.bind_some]
    by_cases eq : id = SymbolTree.root
    · subst eq
      obtain ⟨r, isRoot, top⟩ := wf.linked.root
      cases known.symm.trans isRoot
      rw [top, wf.linked.path_root isRoot]
      rfl
    · obtain ⟨p, parent, less, -⟩ := wf.linked.parent id s known eq
      rw [parent, path_child known parent less]
      simp only [ih p less (Nat.lt_trans less lt), List.append_assoc, List.reverse_append]
      rfl

theorem WellFormed.address_eq (wf : t.WellFormed) (lt : id < t.size) :
    t.address id = some (t.qualifiedName id) := by
  rw [address, wf.ascend_eq lt]
  simp [qualifiedName]

end Offside.SymbolTree
