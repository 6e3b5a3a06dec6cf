import Offside.Proofs.Expr.Parsed

/-!
What holds of the operands of a statement and is kept when trees are joined holds of every tree that
comes out. So the leaves of a tree are lexemes of the statement, and whatever is known of those is
known of the leaves.
-/

namespace Offside

namespace Expr

mutual

/-- The names and the literals of a tree, from left to right, as lexemes. -/
def leaves : Expr → List Lexeme
  | literal l => [.ofLiteral l]
  | ident i => [.ofIdent i]
  | unary _ argument => argument.leaves
  | binary _ left right => left.leaves ++ right.leaves
  | call callee arguments => callee.leaves ++ leavesOf arguments
  | array elements => leavesOf elements

def leavesOf : List Expr → List Lexeme
  | [] => []
  | e :: es => e.leaves ++ leavesOf es

end

theorem leavesOf_eq_flatMap (es : List Expr) : leavesOf es = es.flatMap leaves := by
  induction es with
  | nil => rfl
  | cons e es ih => rw [leavesOf, ih, List.flatMap_cons]

structure Hereditary (P : Expr → Prop) : Prop where
  unary : ∀ op {a}, P a → P (.unary op a)
  binary : ∀ op {a b}, P a → P b → P (.binary op a b)
  call : ∀ {c as}, P c → (∀ a ∈ as, P a) → P (.call c as)
  array : ∀ {es}, (∀ e ∈ es, P e) → P (.array es)

def Element.All (P : Expr → Prop) (e : Element) : Prop :=
  e.Holds (fun m => P m.expr) fun arguments _ => ∀ a ∈ arguments, P a

def Phrase.All (P : Expr → Prop) : Phrase → Prop
  | primary e | statement e => P e
  | call es | statements es | list es => ∀ e ∈ es, P e
  | applied run | unit run | chain run => ∀ e ∈ run, e.All P

variable {P : Expr → Prop} {s : Setting} {level : Nat} {ws : List Lexeme}

theorem climbAll_hereditary (kept : Hereditary P) {run : List Element} {m : Measured} (h : IsRun run)
    (all : ∀ e ∈ run, e.All P) (climbs : climbAll run = some m) : P m.expr := by
  have resolves := (climbAll_eq_some_iff h).1 climbs
  obtain ⟨t, ht, holds⟩ := resolve_holds (P := fun m => P m.expr)
    (Q := fun arguments _ => ∀ a ∈ arguments, P a) (fun op _ pa => kept.unary op pa)
    (fun op _ _ pa pb => kept.binary op pa pb) (fun _ _ _ pc pas => kept.call pc pas) h all
  cases resolves.symm.trans ht
  exact holds

theorem Derives.all (kept : Hereditary P) {p : Phrase} (h : Derives s level p ws)
    (operands : ∀ l ∈ ws, ∀ e, operand s.inClass l = .ok e → P e) : p.All P := by
  induction h with
  | @name _ l i _ payload member =>
    exact operands l List.mem_cons_self _ (operand_eq_ok.2 (.inl ⟨i, payload, member, rfl⟩))
  | @literal _ l x _ payload =>
    exact operands l List.mem_cons_self _ (operand_eq_ok.2 (.inr ⟨x, payload, rfl⟩))
  | group _ _ _ _ ih | call _ _ _ _ ih =>
    exact ih fun l mem => operands l (List.mem_append_left _ (List.mem_cons_of_mem _ mem))
  | array _ _ _ _ ih =>
    exact kept.array (ih fun l mem =>
      operands l (List.mem_append_left _ (List.mem_cons_of_mem _ mem)))
  | unsigned _ ih | alone _ ih | nonempty _ ih => exact ih operands
  | uncalled _ ih | single _ ih => exact List.forall_mem_singleton.2 (ih operands)
  | empty => exact List.forall_mem_nil _
  | called _ _ ihl ihr =>
    obtain ⟨left, right⟩ := List.forall_mem_append.1 operands
    exact List.forall_mem_append.2 ⟨ihl left, List.forall_mem_singleton.2 (ihr right)⟩
  | signed _ _ ih =>
    exact List.forall_mem_cons.2 ⟨trivial, ih (List.forall_mem_cons.1 operands).2⟩
  | joined _ _ _ ihl ihr =>
    obtain ⟨left, right⟩ := List.forall_mem_append.1 operands
    exact List.forall_mem_append.2
      ⟨ihl left, List.forall_mem_cons.2 ⟨trivial, ihr (List.forall_mem_cons.1 right).2⟩⟩
  | statement chain _ climbs _ ih =>
    exact climbAll_hereditary kept (chain.run_wellFormed rfl).1 (ih operands) climbs
  | comma _ _ _ ihl ihr =>
    obtain ⟨left, right⟩ := List.forall_mem_append.1 operands
    exact List.forall_mem_append.2
      ⟨ihl left, List.forall_mem_singleton.2 (ihr (List.forall_mem_cons.1 right).2)⟩
  | adjacent _ _ _ ihl ihr =>
    obtain ⟨left, right⟩ := List.forall_mem_append.1 operands
    exact List.forall_mem_append.2 ⟨ihl left, List.forall_mem_singleton.2 (ihr right)⟩

theorem hereditary_leaves (Q : Lexeme → Prop) : Hereditary fun e => ∀ x ∈ e.leaves, Q x where
  unary _ _ ha := ha
  binary _ _ _ ha hb := List.forall_mem_append.2 ⟨ha, hb⟩
  call hc has := by
    rw [leaves, leavesOf_eq_flatMap]
    exact List.forall_mem_append.2 ⟨hc, List.forall_mem_flatMap.2 has⟩
  array hes := by
    rw [leaves, leavesOf_eq_flatMap]
    exact List.forall_mem_flatMap.2 hes

end Expr

end Offside
