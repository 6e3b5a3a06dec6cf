import Offside.Proofs.Module.Header

/-!
What lines become. A line with a body takes in the statements of the lines that it opens,
in their order; an if line takes in the else line that goes on with it. The relation says
so for each line by itself, by position, without the order in which lines are read.
-/

namespace Offside

theorem Header.Reads.unique {s : Expr.Setting} {ws : List Lexeme} {h h' : Header}
    (reads : Reads s ws h) (reads' : Reads s ws h') : h = h' := by
  have role : h.role = h'.role := reads.role.symm.trans reads'.role
  cases reads <;> cases reads' <;> simp_all [Header.role]

namespace Module

variable (config : Config) (ls : List Line)

/-- The else line at `j` goes on with what the line at `i` began. -/
def Continues (i j : Nat) : Prop :=
  (roleAt ls j).isElse ∧ reached? ls j = some i ∧ indent ls i = indent ls j

/-- The condition of an if line, or of an else line that goes on with one. -/
def Tests (i : Nat) (c : Expr) : Prop :=
  Says config ls i (.if_ c) ∨ Says config ls i (.elseIf c)

/-- The statements of the body that a line opens, or of the entry function. -/
def bodyOf (o : Option Nat) : List Nat :=
  units ls o ls.length

mutual

/-- The line at a position becomes a statement. -/
inductive Yields : Nat → Stmt → Prop
  | expression {i e} : Says config ls i (.expression e) → Yields i (.expr e (number ls i))
  | return_ {i e} : Says config ls i (.return_ e) → Yields i (.return_ e (number ls i))
  | while_ {i c body} : Says config ls i (.while_ c) → YieldsAll (bodyOf ls (some i)) body →
      Yields i (.while_ c body (number ls i))
  | for_ {i init c step body} : Says config ls i (.for_ init c step) →
      YieldsAll (bodyOf ls (some i)) body → Yields i (.for_ init c step body (number ls i))
  | foreach {i item c body} : Says config ls i (.foreach item c) →
      YieldsAll (bodyOf ls (some i)) body → Yields i (.foreach item c body (number ls i))
  | if_ {i c body} : Tests config ls i c → (∀ j, ¬ Continues ls i j) →
      YieldsAll (bodyOf ls (some i)) body → Yields i (.if_ c body (number ls i))
  | ifElse {i j c body otherwise} : Tests config ls i c → Continues ls i j →
      YieldsAll (bodyOf ls (some i)) body → YieldsElse j otherwise →
      Yields i (.ifElse c body otherwise (number ls i))

/-- An else line becomes the else body of the if statement that it goes on with: its own
body, or the one statement that begins on it. -/
inductive YieldsElse : Nat → List Stmt → Prop
  | else_ {j body} : Says config ls j .else_ → YieldsAll (bodyOf ls (some j)) body →
      YieldsElse j body
  | elseIf {j c s} : Says config ls j (.elseIf c) → Yields j s → YieldsElse j [s]

inductive YieldsAll : List Nat → List Stmt → Prop
  | nil : YieldsAll [] []
  | cons {i is s body} : Yields i s → YieldsAll is body → YieldsAll (i :: is) (s :: body)

end

variable {config ls} {i j k : Nat} {s : Stmt} {c : Expr}

theorem Continues.lt (h : Continues ls i j) : i < j :=
  before_lt h.2.1

theorem Continues.deeper (h : Continues ls i j) {q : Nat} (hi : i < q) (hj : q < j) :
    indent ls i < indent ls q := by
  have := (before_eq_some.1 h.2.1).2.2 q hi hj
  have := h.2.2
  omega

theorem Continues.unique (h : Continues ls i j) (h' : Continues ls i k) : j = k := by
  rcases Nat.lt_trichotomy j k with lt | eq | gt
  · have := h'.deeper h.lt lt
    have := h.2.2
    omega
  · exact eq
  · have := h.deeper h'.lt gt
    have := h'.2.2
    omega

theorem Tests.unique {c' : Expr} (h : Tests config ls i c) (h' : Tests config ls i c') :
    c = c' := by
  rcases h with h | h <;> rcases h' with h' | h' <;> cases Header.Reads.unique h h' <;> rfl

theorem YieldsAll.append {is js : List Nat} {a b : List Stmt} (ha : YieldsAll config ls is a)
    (hb : YieldsAll config ls js b) : YieldsAll config ls (is ++ js) (a ++ b) := by
  induction is generalizing a with
  | nil => cases ha; exact hb
  | cons i is ih =>
    cases ha with
    | cons hs ha => exact .cons hs (ih ha)

theorem YieldsAll.singleton (h : Yields config ls i s) : YieldsAll config ls [i] [s] :=
  .cons h .nil

theorem YieldsAll.yields {is : List Nat} {body : List Stmt} (h : YieldsAll config ls is body)
    (mem : i ∈ is) : ∃ s, Yields config ls i s := by
  induction is generalizing body with
  | nil => cases mem
  | cons j is ih =>
    cases h with
    | cons hs hbody =>
      rcases List.mem_cons.1 mem with rfl | mem
      · exact ⟨_, hs⟩
      · exact ih hbody mem

theorem YieldsAll.eq_map {unit : Nat → Stmt} {is : List Nat} {body : List Stmt}
    (h : YieldsAll config ls is body)
    (unique : ∀ i s, Yields config ls i s → s = unit i) : body = is.map unit := by
  induction is generalizing body with
  | nil => cases h; rfl
  | cons i is ih =>
    cases h with
    | cons hs hbody => rw [List.map_cons, ← unique i _ hs, ← ih hbody]

theorem Yields.line (h : Yields config ls i s) : s.line = number ls i := by
  cases h <;> rfl

mutual

theorem Yields.unique {i : Nat} {s s' : Stmt} :
    Yields config ls i s → Yields config ls i s' → s = s'
  | .expression h, h' => by
    cases h' with
    | expression g => cases Header.Reads.unique h g; rfl
    | return_ g | while_ g | for_ g | foreach g => cases Header.Reads.unique h g
    | if_ g | ifElse g => rcases g with g | g <;> cases Header.Reads.unique h g
  | .return_ h, h' => by
    cases h' with
    | return_ g => cases Header.Reads.unique h g; rfl
    | expression g | while_ g | for_ g | foreach g => cases Header.Reads.unique h g
    | if_ g | ifElse g => rcases g with g | g <;> cases Header.Reads.unique h g
  | .while_ h body, h' => by
    cases h' with
    | while_ g body' => cases Header.Reads.unique h g; rw [body.unique body']
    | expression g | return_ g | for_ g | foreach g => cases Header.Reads.unique h g
    | if_ g | ifElse g => rcases g with g | g <;> cases Header.Reads.unique h g
  | .for_ h body, h' => by
    cases h' with
    | for_ g body' => cases Header.Reads.unique h g; rw [body.unique body']
    | expression g | return_ g | while_ g | foreach g => cases Header.Reads.unique h g
    | if_ g | ifElse g => rcases g with g | g <;> cases Header.Reads.unique h g
  | .foreach h body, h' => by
    cases h' with
    | foreach g body' => cases Header.Reads.unique h g; rw [body.unique body']
    | expression g | return_ g | while_ g | for_ g => cases Header.Reads.unique h g
    | if_ g | ifElse g => rcases g with g | g <;> cases Header.Reads.unique h g
  | .if_ h ends body, h' => by
    cases h' with
    | if_ g _ body' => rw [h.unique g, body.unique body']
    | ifElse _ next => exact absurd next (ends _)
    | expression g | return_ g | while_ g | for_ g | foreach g =>
      rcases h with h | h <;> cases Header.Reads.unique h g
  | .ifElse h next body otherwise, h' => by
    cases h' with
    | if_ _ ends => exact absurd next (ends _)
    | ifElse g next' body' otherwise' =>
      cases next.unique next'
      rw [h.unique g, body.unique body', otherwise.unique otherwise']
    | expression g | return_ g | while_ g | for_ g | foreach g =>
      rcases h with h | h <;> cases Header.Reads.unique h g

theorem YieldsElse.unique {j : Nat} {body body' : List Stmt} :
    YieldsElse config ls j body → YieldsElse config ls j body' → body = body'
  | .else_ h all, h' => by
    cases h' with
    | else_ _ all' => exact all.unique all'
    | elseIf g => cases Header.Reads.unique h g
  | .elseIf h one, h' => by
    cases h' with
    | else_ g => cases Header.Reads.unique h g
    | elseIf _ one' => rw [one.unique one']

theorem YieldsAll.unique {is : List Nat} {body body' : List Stmt} :
    YieldsAll config ls is body → YieldsAll config ls is body' → body = body'
  | .nil, .nil => rfl
  | .cons one all, .cons one' all' => by rw [one.unique one', all.unique all']

end

end Module

end Offside
