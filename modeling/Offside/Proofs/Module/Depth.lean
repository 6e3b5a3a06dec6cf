import Mathlib
import Offside.Proofs.Expr.Parsed
import Offside.Proofs.Module.Accounts
import Offside.Proofs.Scan.Lines

/-!
How deep a module is. The limit bounds the depth of each expression, the number of statements
around a statement within its function, and the number of scopes around a symbol, so that
whatever walks over a module recurses no further than that. In the derivation of a statement every
premise is about a line that is nested one deeper, but for an else line, whose own body is as deep
as that of the if line.
-/

namespace Offside

namespace Stmt

/-- The expressions of a statement, without those of its bodies. -/
def exprs : Stmt → List Expr
  | expr e _ | return_ e _ => [e]
  | if_ condition _ _ | ifElse condition _ _ _ | while_ condition _ _ => [condition]
  | foreach _ container _ _ => [container]
  | for_ init condition step _ _ => [init, condition, step]

/-- The statements of its bodies. The rest of an else-if chain is one of them. -/
def inner : Stmt → List Stmt
  | expr .. | return_ .. => []
  | if_ _ body _ | foreach _ _ body _ | for_ _ _ _ body _ | while_ _ body _ => body
  | ifElse _ body otherwise _ => body ++ otherwise

/-- `Inside body n s`: the statement `s` is in the body, in `n` other statements of it. -/
inductive Inside : List Stmt → Nat → Stmt → Prop
  | here {body s} : s ∈ body → Inside body 0 s
  | deeper {body outer n s} : outer ∈ body → Inside outer.inner n s → Inside body (n + 1) s

def Throughout (P : Nat → Stmt → Prop) (body : List Stmt) : Prop :=
  ∀ n s, Inside body n s → P n s

/-- Standing `m` deep already, the statements of a body keep to the limit, and so do their
expressions. -/
def Within (d m : Nat) (body : List Stmt) : Prop :=
  ∀ n s, Inside body n s → m + n ≤ d ∧ ∀ e ∈ s.exprs, e.depth ≤ max 1 d

variable {P : Nat → Stmt → Prop} {d m : Nat} {s : Stmt} {a b : List Stmt}

theorem Throughout.nil : Throughout P [] := by
  intro n s h
  cases h with
  | here mem | deeper mem => cases mem

theorem Throughout.append (ha : Throughout P a) (hb : Throughout P b) :
    Throughout P (a ++ b) := by
  intro n s h
  cases h with
  | here mem =>
    rcases List.mem_append.1 mem with mem | mem
    · exact ha _ _ (.here mem)
    · exact hb _ _ (.here mem)
  | deeper mem inside =>
    rcases List.mem_append.1 mem with mem | mem
    · exact ha _ _ (.deeper mem inside)
    · exact hb _ _ (.deeper mem inside)

theorem Throughout.of_inner (own : P 0 s) (h : Throughout (fun n => P (n + 1)) s.inner) :
    Throughout P [s] := by
  intro n s' inside
  cases inside with
  | here mem => exact List.mem_singleton.1 mem ▸ own
  | deeper mem inside => exact h _ _ (List.mem_singleton.1 mem ▸ inside)

theorem Within.nil : Within d m [] := Throughout.nil

theorem Within.append (ha : Within d m a) (hb : Within d m b) : Within d m (a ++ b) :=
  Throughout.append ha hb

theorem Within.of_inner (le : m ≤ d) (own : ∀ e ∈ s.exprs, e.depth ≤ max 1 d)
    (h : Within d (m + 1) s.inner) : Within d m [s] := by
  refine Throughout.of_inner ⟨le, own⟩ fun n s' inside => ?_
  obtain ⟨deep, exprs⟩ := h n s' inside
  exact ⟨by omega, exprs⟩

end Stmt

namespace SymbolTree

/-- A symbol is that many scopes below the root. -/
inductive Below (t : SymbolTree) : Nat → Nat → Prop
  | root : Below t SymbolTree.root 0
  | child {id s p n} : t.get? id = some s → s.parent = some p → Below t p n → Below t id (n + 1)

/-- Nothing in the symbols is deeper than the limit lets it be. -/
structure Shallow (d : Nat) (t : SymbolTree) : Prop where
  expression : ∀ id f, t.function? id = some f → ∀ n s, Stmt.Inside f.body n s →
    ∀ e ∈ s.exprs, e.depth ≤ max 1 d
  statement : ∀ id f, t.function? id = some f → ∀ n s, Stmt.Inside f.body n s → n ≤ d
  symbol : ∀ id s, t.get? id = some s →
    ∃ n, t.Below id n ∧ n ≤ if s.kind = .variable_ then d + 1 else d

end SymbolTree

namespace Role

variable {r : Role}

theorem opensBlock_of_hasBody (h : r.hasBody) : r.opensBlock := by
  cases r <;> first | rfl | cases h

theorem isUnit_of_not_opensBlock (h : r.opensBlock = false) : r.isUnit := by
  cases r <;> first | rfl | cases h

theorem isElse_of_isUnit (h : r.isUnit) : r.isElse = false := by
  cases r <;> first | rfl | cases h

theorem opensBlock_of_declares (h : r.declares) : r.opensBlock := by
  cases r <;> first | rfl | cases h

theorem eq_function (h : r.declares) (kind : r.kind = .function) : r = .function := by
  cases r <;> simp_all [declares, Role.kind]

end Role

namespace Header

def exprs : Header → List Expr
  | if_ c | elseIf c | while_ c | foreach _ c => [c]
  | for_ init condition step => [init, condition, step]
  | return_ e | expression e => [e]
  | class_ _ | function .. | else_ => []

theorem Reads.depth_le {s : Expr.Setting} {ws : List Lexeme} {h : Header} (reads : h.Reads s ws) :
    ∀ e ∈ h.exprs, e.depth ≤ max 1 s.maxDepth := by
  have one {e : Expr} {vs : List Lexeme} (parses : Expr.parseStatement s vs = .ok e) :
      ∀ e' ∈ [e], e'.depth ≤ max 1 s.maxDepth := fun e' mem =>
    le_max_of_le_right ((Expr.derives_of_parseStatement parses).depth_le e' mem)
  cases reads with
  | class_ | function | else_ => exact List.forall_mem_nil _
  | if_ _ parses | elseIf _ _ parses | while_ _ parses | foreach _ _ _ parses
  | return_ _ _ parses | expression _ _ parses => exact one parses
  | for_ _ parses =>
    exact fun e mem =>
      le_max_of_le_right ((Expr.derives_of_parseStatements parses).depth_le e mem)
  | nothing => exact List.forall_mem_singleton.2 (le_max_left _ _)

end Header

namespace Module

variable {config : Config} {ls : List Line} {name : String} {i j k : Nat} {t : SymbolTree}

section Nesting

theorem Says.lt {h : Header} (told : Says config ls i h) : i < ls.length := by
  by_contra beyond
  have lexemes : (lineAt ls i).lexemes = [] := by simp [lineAt, Nat.not_lt.1 beyond]
  unfold Says at told
  rw [lexemes] at told
  cases told with
  | expression ne => exact ne rfl

theorem Tests.lt {c : Expr} (h : Tests config ls i c) : i < ls.length :=
  h.elim Says.lt Says.lt

theorem Tests.depth_le {c : Expr} (h : Tests config ls i c) :
    ∀ e ∈ [c], e.depth ≤ max 1 config.maxDepth :=
  h.elim Header.Reads.depth_le Header.Reads.depth_le

theorem Continues.nesting_elseIf (h : Continues ls i j) (role : roleAt ls j = .elseIf) :
    nesting ls j = nesting ls i + 1 := by
  simp only [nesting, openers_some, List.foldr_cons, h.opener?, links_elseIf role h.2.1, h.2.2]
  omega

theorem Continues.nesting_else (h : Continues ls i j) (role : roleAt ls j = .else_) :
    nesting ls j = nesting ls i := by
  simp only [nesting, openers_some, List.foldr_cons, h.opener?, links_else role h.2.1, h.2.2]

structure Readable (config : Config) (ls : List Line) : Prop where
  accepted : ∀ i, i < ls.length → Accepted config ls i
  level : ∀ i, i < ls.length → indent ls i = (opener? ls i).elim 0 fun p => indent ls p + 1

namespace Readable

variable (h : Readable config ls)

include h

theorem nesting_unit (lt : k < ls.length) (unit : (roleAt ls k).isUnit) :
    nesting ls k = (opener? ls k).elim 0 fun i => nesting ls i + 1 := by
  have level := h.level k lt
  cases opener : opener? ls k with
  | none =>
    rw [opener, Option.elim_none] at level
    simp [nesting, openers_some, opener, level, links_eq_zero (Role.isElse_of_isUnit unit)]
  | some i =>
    rw [opener, Option.elim_some] at level
    simp only [nesting, openers_some ls k, List.foldr_cons, opener, level, Option.elim_some,
      links_eq_zero (Role.isElse_of_isUnit unit)]
    omega

theorem nesting_bodyOf {o : Option Nat} (mem : k ∈ bodyOf ls o) :
    k < ls.length ∧ nesting ls k = o.elim 0 fun i => nesting ls i + 1 := by
  obtain ⟨lt, unit, rfl⟩ := mem_units.1 mem
  exact ⟨lt, h.nesting_unit lt unit⟩

theorem nesting_le (lt : i < ls.length) : nesting ls i ≤ config.maxDepth := by
  cases block : (roleAt ls i).opensBlock with
  | true => exact Nat.le_of_lt ((h.accepted i lt).depth block)
  | false =>
    have unit := Role.isUnit_of_not_opensBlock block
    rw [h.nesting_unit lt unit]
    cases opener : opener? ls i with
    | none => exact Nat.zero_le _
    | some p =>
      have body := Role.opensBlock_of_hasBody (opener?_hasBody h.accepted lt unit opener)
      exact (h.accepted p (Nat.lt_trans (opener?_lt opener) lt)).depth body

end Readable

mutual

theorem Readable.within {i : Nat} {s : Stmt} (h : Readable config ls) :
    Yields config ls i s → Stmt.Within config.maxDepth (nesting ls i) [s]
  | .expression told | .return_ told => .of_inner (h.nesting_le told.lt) told.depth_le .nil
  | .while_ told body | .for_ told body | .foreach told body =>
    .of_inner (h.nesting_le told.lt) told.depth_le (h.within_all body fun _ => h.nesting_bodyOf)
  | .if_ tests _ body =>
    .of_inner (h.nesting_le tests.lt) tests.depth_le (h.within_all body fun _ => h.nesting_bodyOf)
  | .ifElse tests continues body otherwise =>
    .of_inner (h.nesting_le tests.lt) tests.depth_le
      ((h.within_all body fun _ => h.nesting_bodyOf).append (h.within_else continues otherwise))

theorem Readable.within_else {i j : Nat} {otherwise : List Stmt} (h : Readable config ls)
    (continues : Continues ls i j) : YieldsElse config ls j otherwise →
      Stmt.Within config.maxDepth (nesting ls i + 1) otherwise
  | .else_ told body =>
    continues.nesting_else told.role ▸ h.within_all body fun _ => h.nesting_bodyOf
  | .elseIf told one => continues.nesting_elseIf told.role ▸ h.within one

theorem Readable.within_all {is : List Nat} {body : List Stmt} {m : Nat}
    (h : Readable config ls) : YieldsAll config ls is body →
      (∀ k ∈ is, k < ls.length ∧ nesting ls k = m) → Stmt.Within config.maxDepth m body
  | .nil, _ => .nil
  | .cons one all, level =>
    have first := (level _ List.mem_cons_self).2 ▸ h.within one
    first.append (h.within_all all fun k mem => level k (List.mem_cons_of_mem _ mem))

end

end Nesting

section Symbols

theorem indent_le_nesting (ls : List Line) (i : Nat) : indent ls i ≤ nesting ls i :=
  Nat.le_add_right _ _

variable (finished : Finished config ls name t)

include finished

theorem Finished.get?_symbolAt {x : String} {arguments : List String}
    (named : names ls i = x :: arguments) (lt : i < ls.length) :
    ∃ s, t.get? (symbolAt ls i) = some s ∧
      s.declaration = ⟨x, (roleAt ls i).kind, some (scopeAt ls i)⟩ := by
  have declared := declarations_symbolAt named lt name
  rw [← finished.declarations, SymbolTree.declarations_getElem?] at declared
  exact Option.map_eq_some_iff.1 declared

theorem Finished.body {id : Nat} {f : Function} (h : t.function? id = some f) :
    ∃ o : Option Nat, id = o.elim SymbolTree.root (symbolAt ls) ∧
      (∀ i ∈ o, i < ls.length ∧ roleAt ls i = .function) ∧
      YieldsAll config ls (bodyOf ls o) f.body := by
  by_cases root : id = SymbolTree.root
  · obtain ⟨f', known, -, all⟩ := finished.entry
    cases (root ▸ h).symm.trans known
    exact ⟨none, root, nofun, all⟩
  · obtain ⟨s, known, does⟩ := Option.bind_eq_some_iff.1 h
    have kind := (finished.wellFormed.function known).1 (Option.isSome_of_mem does)
    have declared := SymbolTree.declarations_of_get? known
    rw [finished.declarations] at declared
    have notVariable : s.declaration.kind ≠ .variable_ := by simp [Symbol.declaration, kind]
    obtain ⟨i, lt, named, rfl⟩ := declarations_eq_symbolAt declared root notVariable
    obtain ⟨x, arguments, named'⟩ := List.exists_cons_of_ne_nil named
    obtain ⟨s', known', eq⟩ := finished.get?_symbolAt named' lt
    cases known.symm.trans known'
    have role : roleAt ls i = .function := by
      apply Role.eq_function
      · by_contra other
        exact named (names_eq_nil (by simpa using other))
      · rw [← kind]
        exact (congrArg Declaration.kind eq).symm
    obtain ⟨f', known, -, all⟩ := finished.functions i lt role
    cases h.symm.trans known
    refine ⟨some i, rfl, ?_, all⟩
    rintro _ ⟨⟩
    exact ⟨lt, role⟩

variable (h : Readable config ls)

include h

theorem below_scopeAt (lt : i < ls.length) : ∃ n, t.Below (scopeAt ls i) n ∧ n ≤ indent ls i := by
  induction i using Nat.strongRecOn with
  | ind i ih =>
    unfold scopeAt
    cases hp : declarer? ls i with
    | none => exact ⟨0, .root, Nat.zero_le _⟩
    | some p =>
      obtain ⟨before, declares⟩ := declarer?_lt hp
      have lt' := Nat.lt_trans before lt
      obtain ⟨n, below, le⟩ := ih p before lt'
      obtain ⟨hd, told⟩ := (h.accepted p lt').header
      obtain ⟨x, arguments, named⟩ := List.exists_cons_of_ne_nil (told.named declares)
      obtain ⟨s, known, eq⟩ := finished.get?_symbolAt named lt'
      have around := (mem_enclosing ls).1 (List.mem_of_find?_eq_some hp)
      have deeper := around.2 i before (Nat.le_refl i)
      exact ⟨n + 1, .child known (congrArg Declaration.parent eq) below, by omega⟩

theorem exists_below {id : Nat} {s : Symbol} (known : t.get? id = some s) : ∃ n, t.Below id n ∧
    n ≤ if s.kind = .variable_ then config.maxDepth + 1 else config.maxDepth := by
  have declared := SymbolTree.declarations_of_get? known
  rw [finished.declarations] at declared
  cases id with
  | zero => exact ⟨0, .root, Nat.zero_le _⟩
  | succ m =>
    obtain ⟨i, hi, mem⟩ := List.mem_flatMap.1 (List.mem_of_getElem? declared)
    have lt := List.mem_range.1 hi
    obtain ⟨n, below, le⟩ := below_scopeAt finished h lt
    unfold Module.declared at mem
    split at mem
    · cases mem
    · next x arguments named =>
      have declares : (roleAt ls i).declares := by
        by_contra other
        simp [names_eq_nil (by simpa using other)] at named
      have room := (h.accepted i lt).depth (Role.opensBlock_of_declares declares)
      have level := indent_le_nesting ls i
      rcases List.mem_cons.1 mem with eq | mem
      · have parent : s.parent = some (scopeAt ls i) := congrArg Declaration.parent eq
        refine ⟨n + 1, .child known parent below, ?_⟩
        split <;> omega
      · obtain ⟨y, -, eq⟩ := List.mem_map.1 mem
        have parent : s.parent = some (symbolAt ls i) := (congrArg Declaration.parent eq).symm
        have kind : s.kind = .variable_ := (congrArg Declaration.kind eq).symm
        obtain ⟨s', known', eq'⟩ := finished.get?_symbolAt named lt
        have scope : s'.parent = some (scopeAt ls i) := congrArg Declaration.parent eq'
        refine ⟨n + 2, .child known parent (.child known' scope below), ?_⟩
        rw [if_pos kind]
        omega

end Symbols

theorem readable_of_symbolsOf (ne : ∀ l ∈ ls, l.lexemes ≠ [])
    (ok : symbolsOf config name ls = .ok t) : Readable config ls := by
  obtain ⟨s, read, -⟩ := bind_eq_ok.1 ok
  rw [← List.take_length (l := ls)] at read
  obtain ⟨accepted, inv⟩ := readAll_take config name ne (Nat.le_refl _)
  exact ⟨accepted.1 ⟨s, read⟩, (inv s read).levels⟩

theorem symbolsOf_shallow (ne : ∀ l ∈ ls, l.lexemes ≠ [])
    (ok : symbolsOf config name ls = .ok t) : t.Shallow config.maxDepth := by
  have h := readable_of_symbolsOf ne ok
  obtain ⟨-, finished⟩ := symbolsOf_eq_ok ne ok
  have within (id : Nat) (f : Function) (does : t.function? id = some f) :
      ∃ m, Stmt.Within config.maxDepth m f.body := by
    obtain ⟨o, -, -, all⟩ := finished.body does
    exact ⟨_, h.within_all all fun _ => h.nesting_bodyOf⟩
  refine ⟨fun id f does n s inside => ?_, fun id f does n s inside => ?_, fun id s known => ?_⟩
  · obtain ⟨m, bounded⟩ := within id f does
    exact (bounded n s inside).2
  · obtain ⟨m, bounded⟩ := within id f does
    exact Nat.le_trans (Nat.le_add_left n m) (bounded n s inside).1
  · exact exists_below finished h known

/-- The limit bounds the depth of whatever comes of a source. -/
theorem ofSource_shallow (config : Config) (name source : String) (m : Module)
    (ok : ofSource config name source = .ok m) : m.symbols.Shallow config.maxDepth := by
  obtain ⟨lines, read, ok⟩ := bind_eq_ok.1 ok
  obtain ⟨t, built, eq⟩ := bind_eq_ok.1 ok
  cases eq
  exact symbolsOf_shallow (lexemes_of_tokenize read) built

theorem ofSource_shallow_two :
    let source := "function f x\n\tif x\n\t\treturn -x"
    ∃ m, ofSource ⟨.tabs, 2⟩ "m" source = .ok m ∧ m.symbols.Shallow 2 := by
  intro source
  have ok : ofSource ⟨.tabs, 2⟩ "m" source = .ok ⟨"m", ⟨#[
    ⟨"m", .function, none, [("f", 1)], some {}⟩,
    ⟨"f", .function, some 0, [("x", 2)], some ⟨["x"], [.if_ (.ident ⟨"x", .none⟩)
      [.return_ (.unary .negate (.ident ⟨"x", .none⟩)) 3] 2]⟩⟩,
    ⟨"x", .variable_, some 1, [], none⟩]⟩⟩ := by cbv
  exact ⟨_, ok, ofSource_shallow ⟨.tabs, 2⟩ "m" source _ ok⟩

end Module
end Offside
