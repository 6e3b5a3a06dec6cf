import Mathlib
import Offside.Proofs.Expr.Member
import Offside.Proofs.Module.Depth
import Offside.Proofs.Symbol.Edit

/-!
Members of a class. What decides whether `@x` may stand on a line is whether there is a class line
around it, at any distance: through functions, through other classes and through the statements of
a body. In the symbols this is a class around the function whose body the statement is part of.
The derivation of a statement keeps this: no line of a body is in a class unless the line that opens
the body is, and an else line stands where its if line stands.
-/

namespace Offside

namespace Stmt

/-- The names that a statement refers to itself, without those in its bodies. -/
def idents : Stmt → List Ident
  | foreach item container _ _ => item :: container.idents
  | s => s.exprs.flatMap Expr.idents

end Stmt

namespace Header

def idents : Header → List Ident
  | foreach item container => item :: container.idents
  | h => h.exprs.flatMap Expr.idents

theorem Reads.permitted {s : Expr.Setting} {ws : List Lexeme} {h : Header}
    (reads : h.Reads s ws) : Expr.Permitted s.inClass h.idents := by
  have one {e : Expr} {vs : List Lexeme} (parses : Expr.parseStatement s vs = .ok e) :
      Expr.Permitted s.inClass e.idents := (Expr.derives_of_parseStatement parses).permitted
  cases reads with
  | class_ | function | else_ | nothing => exact .nil
  | if_ _ parses | elseIf _ _ parses | while_ _ parses | return_ _ _ parses
  | expression _ _ parses => exact Expr.permitted_append.2 ⟨one parses, .nil⟩
  | foreach _ _ _ parses => exact List.forall_mem_cons.2 ⟨nofun, one parses⟩
  | for_ _ parses =>
    have terms := (Expr.derives_of_parseStatements parses).permitted
    rwa [Expr.Phrase.idents, Expr.identsOf_eq_flatMap] at terms

end Header

namespace Module

variable {config : Config} {ls : List Line} {name : String} {i j k : Nat} {t : SymbolTree}

section Lines

theorem inClass_none (opener : opener? ls k = none) : inClass ls k = false := by
  rw [inClass, enclosing_eq, opener]
  rfl

theorem inClass_opener (opener : opener? ls k = some i) :
    inClass ls k = (decide (roleAt ls i = .class_) || inClass ls i) := by
  rw [inClass, enclosing_eq, opener, openers, List.any_cons, inClass]

theorem inClass_bodyOf (role : roleAt ls i ≠ .class_) (mem : k ∈ bodyOf ls (some i)) :
    inClass ls k = inClass ls i := by
  rw [inClass_opener (mem_units.1 mem).2.2, decide_eq_false role, Bool.false_or]

theorem Continues.inClass (h : Continues ls i j) : inClass ls j = inClass ls i := by
  rw [Module.inClass, Module.inClass, enclosing_eq, enclosing_eq, h.opener?]

def Keeps (inside : Bool) : List Stmt → Prop :=
  Stmt.Throughout fun _ s => Expr.Permitted inside s.idents

theorem Says.permitted {h : Header} (told : Says config ls i h) :
    Expr.Permitted (inClass ls i) h.idents :=
  Header.Reads.permitted told

theorem Tests.permitted {c : Expr} (h : Tests config ls i c) :
    Expr.Permitted (inClass ls i) ([c].flatMap Expr.idents) :=
  h.elim Says.permitted Says.permitted

theorem Tests.role {c : Expr} (h : Tests config ls i c) : roleAt ls i ≠ .class_ := by
  rcases h with told | told <;> simp [told.role, Header.role]

mutual

theorem Yields.keeps {i : Nat} {s : Stmt} :
    Yields config ls i s → Keeps (inClass ls i) [s]
  | .expression told | .return_ told => .of_inner told.permitted .nil
  | .while_ told body | .for_ told body | .foreach told body =>
    .of_inner told.permitted (body.keeps fun _ => inClass_bodyOf (by simp [told.role, Header.role]))
  | .if_ tests _ body => .of_inner tests.permitted (body.keeps fun _ => inClass_bodyOf tests.role)
  | .ifElse tests continues body otherwise =>
    .of_inner tests.permitted ((body.keeps fun _ => inClass_bodyOf tests.role).append
      (continues.inClass ▸ otherwise.keeps))

theorem YieldsElse.keeps {j : Nat} {otherwise : List Stmt} :
    YieldsElse config ls j otherwise → Keeps (inClass ls j) otherwise
  | .else_ told body => body.keeps fun _ => inClass_bodyOf (by simp [told.role, Header.role])
  | .elseIf _ one => one.keeps

theorem YieldsAll.keeps {is : List Nat} {body : List Stmt} {inside : Bool} :
    YieldsAll config ls is body → (∀ k ∈ is, inClass ls k = inside) → Keeps inside body
  | .nil, _ => .nil
  | .cons one all, same =>
    have first := same _ List.mem_cons_self ▸ one.keeps
    first.append (all.keeps fun k mem => same k (List.mem_cons_of_mem _ mem))

end

end Lines

section Symbols

variable (finished : Finished config ls name t) (h : Readable config ls)

include finished h

theorem get?_declares (lt : i < ls.length) (declares : (roleAt ls i).declares) :
    ∃ s, t.get? (symbolAt ls i) = some s ∧ s.kind = (roleAt ls i).kind ∧
      s.parent = some (scopeAt ls i) := by
  obtain ⟨hd, told⟩ := (h.accepted i lt).header
  obtain ⟨x, arguments, named⟩ := List.exists_cons_of_ne_nil (told.named declares)
  obtain ⟨s, known, eq⟩ := finished.get?_symbolAt named lt
  exact ⟨s, known, congrArg Declaration.kind eq, congrArg Declaration.parent eq⟩

theorem encloses_scopeAt {q : Nat} (lt : i < ls.length) (declares : (roleAt ls q).declares)
    (mem : q ∈ enclosing ls i) :
    scopeAt ls i = symbolAt ls q ∨ t.Encloses (symbolAt ls q) (scopeAt ls i) := by
  induction i using Nat.strongRecOn with
  | ind i ih =>
    rw [enclosing_eq] at mem
    rw [scopeAt, declarer?, enclosing_eq]
    cases opener : opener? ls i with
    | none =>
      rw [opener] at mem
      cases mem
    | some p =>
      have before := opener?_lt opener
      have lt' := Nat.lt_trans before lt
      rw [opener, openers] at mem
      rw [openers, List.find?_cons]
      cases own : (roleAt ls p).declares with
      | true =>
        rcases List.mem_cons.1 mem with rfl | mem
        · exact .inl rfl
        · obtain ⟨s, known, -, parent⟩ := get?_declares finished h lt' own
          refine .inr ?_
          rcases ih p before lt' mem with eq | encloses
          · exact .scope known (eq ▸ parent)
          · exact .further known parent encloses
      | false =>
        rcases List.mem_cons.1 mem with rfl | mem
        · rw [declares] at own
          cases own
        · exact ih p before lt' mem

theorem encloses_of_inClass (lt : i < ls.length) (declares : (roleAt ls i).declares)
    (inside : inClass ls i = true) :
    ∃ a s, t.Encloses a (symbolAt ls i) ∧ t.get? a = some s ∧ s.kind = .class_ := by
  obtain ⟨q, mem, role⟩ := List.any_eq_true.1 inside
  have isClass : roleAt ls q = .class_ := of_decide_eq_true role
  have lt' := Nat.lt_trans ((mem_enclosing ls).1 mem).1 lt
  have declaresToo : (roleAt ls q).declares := by
    rw [isClass]
    rfl
  obtain ⟨s, known, kind, -⟩ := get?_declares finished h lt' declaresToo
  obtain ⟨s', known', -, parent⟩ := get?_declares finished h lt declares
  refine ⟨symbolAt ls q, s, ?_, known, by rw [kind, isClass]; rfl⟩
  rcases encloses_scopeAt finished h lt declaresToo mem with eq | encloses
  · exact .scope known' (eq ▸ parent)
  · exact .further known' parent encloses

end Symbols

theorem symbolsOf_member (ne : ∀ l ∈ ls, l.lexemes ≠ [])
    (ok : symbolsOf config name ls = .ok t) {id : Nat} {f : Function}
    (does : t.function? id = some f) {n : Nat} {s : Stmt} (inside : Stmt.Inside f.body n s)
    {x : Ident} (mem : x ∈ s.idents) (member : x.sigil = .member) :
    id ≠ SymbolTree.root ∧
      ∃ a s, t.Encloses a id ∧ t.get? a = some s ∧ s.kind = .class_ := by
  have h := readable_of_symbolsOf ne ok
  obtain ⟨-, finished⟩ := symbolsOf_eq_ok ne ok
  obtain ⟨o, rfl, line, all⟩ := finished.body does
  cases o with
  | none =>
    have outside : Keeps false f.body := all.keeps fun _ mem => inClass_none (mem_units.1 mem).2.2
    cases outside n s inside x mem member
  | some i =>
    obtain ⟨lt, role⟩ := line i rfl
    have within := all.keeps fun _ => inClass_bodyOf (by simp [role])
    have inClass : inClass ls i = true := within n s inside x mem member
    have declares : (roleAt ls i).declares := by
      rw [role]
      rfl
    exact ⟨Nat.ne_of_gt (symbolAt_pos i), encloses_of_inClass finished h lt declares inClass⟩

theorem entry_eq_body {m : Module} {f : Function}
    (does : m.symbols.function? SymbolTree.root = some f) : m.entry = f.body := by
  obtain ⟨s, known, does⟩ := Option.bind_eq_some_iff.1 does
  rw [entry, known, Option.map_some, Option.getD_some, Symbol.body, does]
  rfl

/-- Members of a class are referred to only in functions that have a class around them, by whatever
statement and in whatever expression of the body; in the body of the entry function never. -/
theorem ofSource_member (config : Config) (name source : String) (m : Module)
    (ok : ofSource config name source = .ok m) :
    (∀ id f, m.symbols.function? id = some f → ∀ n s, Stmt.Inside f.body n s →
      ∀ i ∈ s.idents, i.sigil = .member → ∃ a c, m.symbols.Encloses a id ∧
        m.symbols.get? a = some c ∧ c.kind = .class_) ∧
    ∀ n s, Stmt.Inside m.entry n s → ∀ i ∈ s.idents, i.sigil ≠ .member := by
  obtain ⟨lines, read, ok⟩ := bind_eq_ok.1 ok
  obtain ⟨t, built, eq⟩ := bind_eq_ok.1 ok
  cases eq
  have ne := lexemes_of_tokenize read
  refine ⟨fun id f does n s inside i mem member => ?_, fun n s inside i mem member => ?_⟩
  · exact (symbolsOf_member ne built does inside mem member).2
  · obtain ⟨f, does, -⟩ := (symbolsOf_eq_ok ne built).2.entry
    rw [entry_eq_body does] at inside
    exact (symbolsOf_member ne built does inside mem member).1 rfl

theorem ofSource_member_method :
    let source := "class A\n\tfunction f\n\t\tif x\n\t\t\treturn -@y"
    ∃ m f s, ofSource {} "m" source = .ok m ∧ m.symbols.function? 2 = some f ∧
      Stmt.Inside f.body 1 s ∧ ⟨"y", .member⟩ ∈ s.idents ∧
      ∃ a c, m.symbols.Encloses a 2 ∧ m.symbols.get? a = some c ∧ c.kind = .class_ := by
  intro source
  let inner : Stmt := .return_ (.unary .negate (.ident ⟨"y", .member⟩)) 4
  let body : List Stmt := [.if_ (.ident ⟨"x", .none⟩) [inner] 3]
  let m : Module := ⟨"m", ⟨#[
    ⟨"m", .function, none, [("A", 1)], some {}⟩,
    ⟨"A", .class_, some 0, [("f", 2)], none⟩,
    ⟨"f", .function, some 1, [], some ⟨[], body⟩⟩]⟩⟩
  have ok : ofSource {} "m" source = .ok m := by cbv
  have does : m.symbols.function? 2 = some ⟨[], body⟩ := rfl
  have inside : Stmt.Inside body 1 inner :=
    .deeper List.mem_cons_self (.here List.mem_cons_self)
  have mem : ⟨"y", .member⟩ ∈ inner.idents := List.mem_cons_self
  exact ⟨m, _, inner, ok, does, inside, mem,
    (ofSource_member {} "m" source m ok).1 2 _ does 1 inner inside ⟨"y", .member⟩ mem rfl⟩

end Module

end Offside
