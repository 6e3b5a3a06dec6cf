import Mathlib
import Offside.Proofs.Checked.Run
import Offside.Proofs.Expr.Run

/-!
Resolution by places. The loosest operator is found by going over the run from its end, and the run
is then cut behind it. The cut is always inside the run, and each part is shorter than the whole.
-/

namespace Offside.Expr

open Checked

/-- The place and the level of the loosest operator of a run that begins at `place`. -/
def loosest (place : Nat) : List Element → Option (Nat × Nat)
  | [] => none
  | .operand _ :: es => loosest (place + 1) es
  | .operator c :: es =>
    match loosest (place + 1) es with
    | none => some (place, c.level)
    | some (i, level) =>
      if level < c.level || (c.level == level && c.rightToLeft) then some (place, c.level)
      else some (i, level)

end Offside.Expr

section

open Offside Offside.Expr Offside.Checked

def List.resolution (es : List Element) : ExceptT Fault Option Measured := do
  match es with
  | [.operand m] => return m
  | [.operator _] => throw .noRoot
  | _ =>
    match loosest 0 es with
    | none => throw .noRoot
    | some (i, _) =>
      let (front, right) ← cut es (i + 1)
      let left := front.dropLast
      match front.getLast? with
      | some (.operator (.unary op)) =>
        if right.isEmpty then throw .unaryWithoutArgument
        else
          let argument ← right |>.resolution
          if left.isEmpty then return .unary op argument
          else left ++ [Element.operand (.unary op argument)] |>.resolution
      | some (.operator (.binary op)) =>
        if left.isEmpty || right.isEmpty then throw .binaryWithoutArguments
        else
          let a ← left |>.resolution
          let b ← right |>.resolution
          return .binary op a b
      | some (.operator (.call arguments depth)) =>
        if left.isEmpty then throw .callWithoutCallee
        else
          let callee ← left |>.resolution
          if right.isEmpty then return callee.call arguments depth
          else Element.operand (callee.call arguments depth) :: right |>.resolution
      | _ => throw .noRoot
partial_fixpoint

end

namespace Offside.Expr

open Checked

theorem loosest_eq_split (place : Nat) (es : List Element) : loosest place es =
    (split es).map fun s => (place + s.left.length, s.root.level) := by
  induction es generalizing place with
  | nil => rfl
  | cons e es ih =>
    cases e with
    | operand m =>
      rw [loosest, split, ih, Option.map_map]
      refine congrArg (Option.map · _) (funext fun s => ?_)
      simp only [Function.comp_apply, List.length_cons]
      rw [Nat.add_right_comm, Nat.add_assoc]
    | operator c =>
      rw [loosest, split, ih]
      cases split es with
      | none => rfl
      | some s =>
        change (if c.displaces s.root = true then _ else _) = Option.map _ (if _ then _ else _)
        split
        · rfl
        · simp only [Option.map_some, List.length_cons]
          rw [Nat.add_right_comm, Nat.add_assoc]

section Equations

variable {es left right : List Element} {c : Connective}

theorem cut_split (h : split es = some ⟨left, c, right⟩) :
    cut es (left.length + 1) = some (left ++ [.operator c], right) := by
  have es_eq : es = (left ++ [.operator c]) ++ right := by simpa using split_eq h
  have place : left.length + 1 = (left ++ [Element.operator c]).length := by simp
  rw [cut, es_eq, place, if_pos (by simp), List.splitAt_eq, List.take_left, List.drop_left]

def joined (left : List Element) (c : Connective) (right : List Element) :
    ExceptT Fault Option Measured := do
  match c with
  | .unary op =>
    if right.isEmpty then throw .unaryWithoutArgument
    else
      let argument ← right.resolution
      if left.isEmpty then return .unary op argument
      else (left ++ [Element.operand (.unary op argument)]).resolution
  | .binary op =>
    if left.isEmpty || right.isEmpty then throw .binaryWithoutArguments
    else
      let a ← left.resolution
      let b ← right.resolution
      return .binary op a b
  | .call arguments depth =>
    if left.isEmpty then throw .callWithoutCallee
    else
      let callee ← left.resolution
      if right.isEmpty then return callee.call arguments depth
      else (Element.operand (callee.call arguments depth) :: right).resolution

theorem resolution_split (h : split es = some ⟨left, c, right⟩) (both : left ≠ [] ∨ right ≠ []) :
    es.resolution = joined left c right := by
  have many : es.length ≠ 1 := by
    have := length_split h
    simp only [← List.length_pos_iff] at both this
    omega
  rw [List.resolution, loosest_eq_split, h]
  · simp only [Option.map_some, Nat.zero_add, cut_split h, liftOption_bind]
    cases c <;> simp [joined]
  · rintro m rfl
    exact many rfl
  · rintro c rfl
    exact many rfl

theorem resolution_alone (h : split es = some ⟨[], c, []⟩) :
    es.resolution = some (.error .noRoot) := by
  obtain rfl : es = [.operator c] := split_eq h
  rw [List.resolution]
  rfl

theorem resolution_uncut (h : split es = none) (other : ∀ m, es ≠ [.operand m]) :
    es.resolution = some (.error .noRoot) := by
  rw [List.resolution, loosest_eq_split, h]
  · rfl
  · exact other
  · rintro c rfl
    cases h

end Equations

/-- Whatever the elements are, both give the same tree or the same fault. -/
theorem resolution_eq (es : List Element) : es.resolution = some (resolve es) := by
  induction es using resolve.induct with
  | case1 m =>
    rw [List.resolution, resolve_operand]
    rfl
  | case2 es cut _ other =>
    have many (m : Measured) : es ≠ [.operand m] := by
      rintro rfl
      exact other m cut rfl HEq.rfl
    rw [resolution_uncut cut many, resolve_uncut cut many]
  | case3 es left op r right cut ihr ihl =>
    rw [resolution_split cut (by simp), resolve_split_unary cut (by simp)]
    refine defined_bind ihr fun a _ => ?_
    cases left with
    | nil => exact congrArg some (resolve_operand _).symm
    | cons => exact ihl a
  | case4 es l left op r right cut ihl ihr =>
    rw [resolution_split cut (by simp), resolve_split_binary cut (by simp) (by simp)]
    exact defined_bind ihl fun a _ => defined_bind ihr fun b _ => rfl
  | case5 es l left arguments depth right cut ihl ihr =>
    rw [resolution_split cut (by simp), resolve_split_call cut (by simp)]
    refine defined_bind ihl fun c _ => ?_
    cases right with
    | nil => exact congrArg some (resolve_operand _).symm
    | cons => exact ihr c
  | case6 es c cut => rw [resolution_alone cut, resolve_alone cut]
  | case7 es l left op cut =>
    rw [resolution_split cut (by simp), resolve_split_unary_nil cut (by simp)]
    rfl
  | case8 es l left op cut =>
    rw [resolution_split cut (by simp), resolve_split_binary_right_nil cut (by simp)]
    rfl
  | case9 es op r right cut =>
    rw [resolution_split cut (by simp), resolve_split_binary_left_nil cut (by simp)]
    rfl
  | case10 es arguments depth r right cut =>
    rw [resolution_split cut (by simp), resolve_split_call_nil cut (by simp)]
    rfl

end Offside.Expr
