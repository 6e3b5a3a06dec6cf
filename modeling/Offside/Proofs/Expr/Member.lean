import Offside.Proofs.Expr.Leaves

/-!
The names in an expression. Whatever is parsed, members of a class are among them only if the
setting says that there is a class around: the names of a tree are those of its lexemes, and
resolution neither adds a name nor changes one.
-/

namespace Offside

namespace Expr

mutual

def idents : Expr → List Ident
  | literal _ => []
  | ident i => [i]
  | unary _ argument => argument.idents
  | binary _ left right => left.idents ++ right.idents
  | call callee arguments => callee.idents ++ identsOf arguments
  | array elements => identsOf elements

def identsOf : List Expr → List Ident
  | [] => []
  | e :: es => e.idents ++ identsOf es

end

theorem identsOf_eq_flatMap (es : List Expr) : identsOf es = es.flatMap idents := by
  induction es with
  | nil => rfl
  | cons e es ih => rw [identsOf, ih, List.flatMap_cons]

/-- Members are referred to only if there is a class around. -/
def Permitted (inClass : Bool) (is : List Ident) : Prop :=
  ∀ i ∈ is, i.sigil = .member → inClass = true

section Permitted

variable {inClass : Bool} {is js : List Ident}

theorem Permitted.nil : Permitted inClass [] := List.forall_mem_nil _

theorem permitted_append :
    Permitted inClass (is ++ js) ↔ Permitted inClass is ∧ Permitted inClass js :=
  List.forall_mem_append

end Permitted

def Element.idents : Element → List Ident
  | .operand m => m.expr.idents
  | .operator (.call arguments _) => identsOf arguments
  | .operator _ => []

def Phrase.idents : Phrase → List Ident
  | primary e | statement e => e.idents
  | call es | statements es | list es => identsOf es
  | applied run | unit run | chain run => run.flatMap Element.idents

variable {s : Setting} {level : Nat} {ws : List Lexeme} {inClass : Bool}

theorem hereditary_permitted : Hereditary (Permitted inClass ·.idents) where
  unary _ _ ha := ha
  binary _ _ _ ha hb := permitted_append.2 ⟨ha, hb⟩
  call hc has := by
    rw [idents, identsOf_eq_flatMap]
    exact permitted_append.2 ⟨hc, List.forall_mem_flatMap.2 has⟩
  array hes := by
    rw [idents, identsOf_eq_flatMap]
    exact List.forall_mem_flatMap.2 hes

theorem Element.permitted {e : Element} (h : e.All (Permitted inClass ·.idents)) :
    Permitted inClass e.idents := by
  match e, h with
  | .operand _, h => exact h
  | .operator (.call arguments _), h =>
    rw [idents, identsOf_eq_flatMap]
    exact List.forall_mem_flatMap.2 h
  | .operator (.unary _), _ | .operator (.binary _), _ => exact .nil

theorem Phrase.permitted {p : Phrase} (h : p.All (Permitted inClass ·.idents)) :
    Permitted inClass p.idents := by
  cases p with
  | primary | statement => exact h
  | call | statements | list =>
    rw [idents, identsOf_eq_flatMap]
    exact List.forall_mem_flatMap.2 h
  | applied | unit | chain => exact List.forall_mem_flatMap.2 fun e mem => Element.permitted (h e mem)

theorem Derives.permitted {p : Phrase} (h : Derives s level p ws) :
    Permitted s.inClass p.idents := by
  refine Phrase.permitted (h.all hereditary_permitted fun l _ e read => ?_)
  rcases operand_eq_ok.1 read with ⟨i, -, member, rfl⟩ | ⟨x, -, rfl⟩
  · exact List.forall_mem_singleton.2 member
  · exact .nil

end Expr

end Offside
