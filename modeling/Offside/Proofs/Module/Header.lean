import Offside.Proofs.Module.Position
import Offside.Proofs.Symbol.WellFormed

/-!
What the line at a position says: its header, with the expressions in it read; the names
that it declares, with the numbers of their symbols; and the else-if links above its body.
-/

namespace Offside

inductive Header
  | class_ (name : String)
  | function (name : String) (arguments : List String)
  | if_ (condition : Expr)
  | elseIf (condition : Expr)
  | else_
  | while_ (condition : Expr)
  | for_ (init condition step : Expr)
  | foreach (item : Ident) (container : Expr)
  | return_ (value : Expr)
  | expression (e : Expr)

def Header.role : Header → Role
  | class_ _ => .class_
  | function .. => .function
  | if_ _ => .if_
  | elseIf _ => .elseIf
  | else_ => .else_
  | while_ _ => .while_
  | for_ .. => .for_
  | foreach .. => .foreach
  | return_ _ => .return_
  | expression _ => .expression

/-- The lexemes of a line say what the header tells. -/
inductive Header.Reads (s : Expr.Setting) : List Lexeme → Header → Prop
  | class_ {w x name} : w.kind = .keyword .class_ → x.plainName? = some name →
      Reads s [w, x] (.class_ name)
  | function {w xs name arguments} : w.kind = .keyword .function →
      xs.mapM Lexeme.plainName? = some (name :: arguments) →
      Reads s (w :: xs) (.function name arguments)
  | if_ {w rest c} : w.kind = .keyword .if_ → Expr.parseStatement s rest = .ok c →
      Reads s (w :: rest) (.if_ c)
  | elseIf {w w' rest c} : w.kind = .keyword .else_ → w'.kind = .keyword .if_ →
      Expr.parseStatement s rest = .ok c → Reads s (w :: w' :: rest) (.elseIf c)
  | else_ {w} : w.kind = .keyword .else_ → Reads s [w] .else_
  | while_ {w rest c} : w.kind = .keyword .while_ → Expr.parseStatement s rest = .ok c →
      Reads s (w :: rest) (.while_ c)
  | for_ {w rest init c step} : w.kind = .keyword .for_ →
      Expr.parseStatements s rest = .ok [init, c, step] → Reads s (w :: rest) (.for_ init c step)
  | foreach {w x w' rest name c} : w.kind = .keyword .foreach → x.plainName? = some name →
      w'.kind = .keyword .in_ → Expr.parseStatement s rest = .ok c →
      Reads s (w :: x :: w' :: rest) (.foreach ⟨name, .none⟩ c)
  | nothing {w} : w.kind = .keyword .return_ → Reads s [w] (.return_ (.literal .nil))
  | return_ {w rest e} : w.kind = .keyword .return_ → rest ≠ [] →
      Expr.parseStatement s rest = .ok e → Reads s (w :: rest) (.return_ e)
  | expression {ws e} : ws ≠ [] → Role.of ws = .expression → Expr.parseStatement s ws = .ok e →
      Reads s ws (.expression e)

theorem Header.Reads.role {s : Expr.Setting} {ws : List Lexeme} {h : Header}
    (reads : Reads s ws h) : Role.of ws = h.role := by
  cases reads with
  | elseIf kind next => simp [Role.of, Role.ofElse, kind, next, Header.role]
  | else_ kind => simp [Role.of, Role.ofElse, kind, Header.role]
  | expression _ role => exact role
  | class_ kind | function kind | if_ kind | while_ kind | for_ kind | foreach kind
  | nothing kind | return_ kind => simp [Role.of, kind, Header.role]

def Role.kind : Role → SymbolKind
  | class_ => .class_
  | _ => .function

namespace Module

variable (config : Config) (ls : List Line)

def inClass (i : Nat) : Bool :=
  (enclosing ls i).any fun j => roleAt ls j = .class_

def settingAt (i : Nat) : Expr.Setting :=
  ⟨config.maxDepth, inClass ls i⟩

/-- What the line at a position says. -/
def Says (i : Nat) (h : Header) : Prop :=
  h.Reads (settingAt config ls i) (lineAt ls i).lexemes

/-- The nearest class or function around a line. -/
def declarer? (i : Nat) : Option Nat :=
  (enclosing ls i).find? fun j => (roleAt ls j).declares

/-- The names that a line declares: its own and those of its arguments. -/
def names (i : Nat) : List String :=
  if (roleAt ls i).declares then
    ((lineAt ls i).lexemes.tail.mapM Lexeme.plainName?).getD []
  else []

/-- The number of the symbol that a line declares; its arguments follow. -/
def symbolAt : Nat → Nat
  | 0 => 1
  | i + 1 => symbolAt i + (names ls i).length

def scopeAt (i : Nat) : Nat :=
  (declarer? ls i).elim SymbolTree.root (symbolAt ls)

def declared (i : Nat) : List Declaration :=
  match names ls i with
  | [] => []
  | name :: arguments =>
    ⟨name, (roleAt ls i).kind, some (scopeAt ls i)⟩ ::
      arguments.map fun x => ⟨x, .variable_, some (symbolAt ls i)⟩

/-- All that is declared before position `k`, and the entry function. -/
def declarations (name : String) (k : Nat) : List Declaration :=
  ⟨name, .function, none⟩ :: (List.range k).flatMap (declared ls)

/-- The else-if lines of a chain, up to a line of it. -/
def links (i : Nat) : Nat :=
  match _h : reached? ls i with
  | none => 0
  | some j =>
    match roleAt ls i with
    | .elseIf => links j + 1
    | .else_ => links j
    | _ => 0
termination_by i
decreasing_by all_goals exact before_lt _h

/-- How deep the body of a line is nested: once for each line around it, and once for each
else-if link above it. -/
def nesting (i : Nat) : Nat :=
  indent ls i + (openers ls (some i)).foldr (fun j n => links ls j + n) 0

section Declarations

variable {ls} {config} {i j k : Nat} {name : String} {arguments : List String}

theorem Says.role {h : Header} (told : Says config ls i h) : roleAt ls i = h.role :=
  Header.Reads.role told

theorem names_class (h : Says config ls i (.class_ name)) : names ls i = [name] := by
  have role : roleAt ls i = .class_ := h.role
  rw [names, role]
  unfold Says at h
  generalize (lineAt ls i).lexemes = ws at h ⊢
  cases h with
  | class_ _ plain => simp [Role.declares, plain]

theorem names_function (h : Says config ls i (.function name arguments)) :
    names ls i = name :: arguments := by
  have role : roleAt ls i = .function := h.role
  rw [names, role]
  unfold Says at h
  generalize (lineAt ls i).lexemes = ws at h ⊢
  cases h with
  | function _ plain => simp [Role.declares, plain]

theorem names_eq_nil (h : (roleAt ls i).declares = false) : names ls i = [] := by
  simp [names, h]

theorem length_declared (i : Nat) : (declared ls i).length = (names ls i).length := by
  unfold declared
  split <;> simp_all

theorem declarations_succ (name : String) (k : Nat) :
    declarations ls name (k + 1) = declarations ls name k ++ declared ls k := by
  simp [declarations, List.range_succ]

theorem length_declarations (name : String) (k : Nat) :
    (declarations ls name k).length = symbolAt ls k := by
  induction k with
  | zero => rfl
  | succ k ih => rw [declarations_succ, List.length_append, ih, length_declared, symbolAt]

theorem symbolAt_pos (i : Nat) : 0 < symbolAt ls i := by
  induction i with
  | zero => exact Nat.one_pos
  | succ i ih => exact Nat.lt_of_lt_of_le ih (Nat.le_add_right _ _)

theorem symbolAt_mono (le : i ≤ j) : symbolAt ls i ≤ symbolAt ls j := by
  induction le with
  | refl => exact Nat.le_refl _
  | step _ ih => exact Nat.le_trans ih (Nat.le_add_right _ _)

theorem symbolAt_lt (named : names ls i ≠ []) (lt : i < j) : symbolAt ls i < symbolAt ls j := by
  have le : symbolAt ls (i + 1) ≤ symbolAt ls j := symbolAt_mono lt
  have := List.length_pos_iff.2 named
  rw [symbolAt] at le
  omega

theorem symbolAt_inj (hi : names ls i ≠ []) (hj : names ls j ≠ [])
    (eq : symbolAt ls i = symbolAt ls j) : i = j := by
  rcases Nat.lt_trichotomy i j with lt | same | gt
  · exact absurd eq (Nat.ne_of_lt (symbolAt_lt hi lt))
  · exact same
  · exact absurd eq.symm (Nat.ne_of_lt (symbolAt_lt hj gt))

theorem getElem?_declarations (lt : i < k) (module : String) {m : Nat}
    (own : m < (names ls i).length) :
    (declarations ls module k)[symbolAt ls i + m]? = (declared ls i)[m]? := by
  induction lt with
  | refl =>
    rw [declarations_succ, ← length_declarations module i, List.getElem?_append_right (by omega),
      Nat.add_sub_cancel_left]
  | @step k le ih =>
    have within : symbolAt ls (i + 1) ≤ symbolAt ls k := symbolAt_mono le
    rw [symbolAt] at within
    rw [declarations_succ, List.getElem?_append_left (by rw [length_declarations]; omega), ih]

theorem declarations_symbolAt (named : names ls i = name :: arguments) (lt : i < k)
    (module : String) : (declarations ls module k)[symbolAt ls i]? =
      some ⟨name, (roleAt ls i).kind, some (scopeAt ls i)⟩ := by
  have own : 0 < (names ls i).length := by simp [named]
  have first := getElem?_declarations lt module own
  rw [Nat.add_zero, declared, named] at first
  exact first

end Declarations

section Links

variable {ls} {i j : Nat}

theorem links_elseIf (role : roleAt ls i = .elseIf) (h : reached? ls i = some j) :
    links ls i = links ls j + 1 := by
  rw [links]
  split
  · next none => rw [none] at h; cases h
  · next some =>
    rw [h] at some
    cases some
    simp [role]

theorem links_else (role : roleAt ls i = .else_) (h : reached? ls i = some j) :
    links ls i = links ls j := by
  rw [links]
  split
  · next none => rw [none] at h; cases h
  · next some =>
    rw [h] at some
    cases some
    simp [role]

theorem links_eq_zero (h : (roleAt ls i).isElse = false) : links ls i = 0 := by
  rw [links]
  split
  · rfl
  · split
    · next role => simp [role, Role.isElse] at h
    · next role => simp [role, Role.isElse] at h
    · rfl

end Links

end Module

end Offside
