import Offside.Proofs.Module.Unit

/-!
The open blocks against the lines that opened them. The innermost block belongs to a line,
the next one to the opener of that line, and so on. Each body holds the statements of the
lines read so far, but for those that are still open themselves.
-/

namespace Offside.Module

variable (config : Config) (ls : List Line)

structure LeavesArm (i p : Nat) (arm : Arm) : Prop where
  continues : Continues ls i p
  tests : Tests config ls i arm.condition
  body : YieldsAll config ls (bodyOf ls (some i)) arm.body
  line : arm.line = number ls i

/-- The arms of a chain before the line at `p`, back to the if line at `q`. -/
inductive Chain : Nat → Nat → List Arm → Prop
  | if_ {q} : roleAt ls q = .if_ → Chain q q []
  | elseIf {p c i q arm arms} : Says config ls p (.elseIf c) → LeavesArm config ls i p arm →
      Chain i q arms → Chain p q (arm :: arms)

/-- The line at `p` opens a block, in what began at `q`. -/
inductive Opens : Nat → Nat → Opener → Prop
  | class_ {p name} : Says config ls p (.class_ name) → Opens p p (.class_ (symbolAt ls p))
  | function {p name arguments} : Says config ls p (.function name arguments) →
      Opens p p (.function (symbolAt ls p) arguments)
  | while_ {p c} : Says config ls p (.while_ c) → Opens p p (.while_ c)
  | for_ {p init c step} : Says config ls p (.for_ init c step) →
      Opens p p (.for_ init c step)
  | foreach {p item c} : Says config ls p (.foreach item c) → Opens p p (.foreach item c)
  | if_ {p q c arms} : Tests config ls p c → Chain config ls p q arms → Opens p q (.if_ c arms)
  | else_ {p i q arm arms} : Says config ls p .else_ → LeavesArm config ls i p arm →
      Chain config ls i q arms → Opens p q (.else_ arm arms)

/-- After `k` lines, the blocks are those of the line `o` and the lines around it, and the
innermost body, or else the entry, has the statements of the lines before `b`. -/
inductive Around (k : Nat) (entry : List Stmt) : Nat → Option Nat → List Block → Prop
  | entry {b} : YieldsAll config ls (units ls none b) entry.reverse → Around k entry b none []
  | block {b p q block outer} : p < k → Opens config ls p q block.opener →
      block.line = number ls p → indent ls p = outer.length →
      YieldsAll config ls (units ls (some p) b) block.body.reverse →
      (∀ i, p < i → i < k → indent ls p < indent ls i) →
      (∀ i, q < i → i < k → indent ls q < indent ls i ∨ (roleAt ls i).isElse) →
      Around k entry q (opener? ls p) outer → Around k entry b (some p) (block :: outer)

variable {config ls} {k b p q i : Nat} {o : Option Nat} {entry : List Stmt}
  {blocks outer : List Block} {arms : List Arm} {opener : Opener}

namespace Continues

theorem opener? (h : Continues ls i p) : Module.opener? ls p = Module.opener? ls i := by
  refine opener?_congr (Nat.le_of_lt h.lt) h.2.2.symm fun q le lt => ?_
  rcases Nat.lt_or_eq_of_le le with less | rfl
  · exact Nat.le_of_lt (h.deeper less lt)
  · exact Nat.le_refl _

end Continues

namespace Chain

theorem le (h : Chain config ls p q arms) : q ≤ p := by
  induction h with
  | if_ => exact Nat.le_refl _
  | elseIf _ leaves _ ih => exact Nat.le_trans ih (Nat.le_of_lt leaves.continues.lt)

theorem indent (h : Chain config ls p q arms) : indent ls q = indent ls p := by
  induction h with
  | if_ => rfl
  | elseIf _ leaves _ ih => exact ih.trans leaves.continues.2.2

theorem opener? (h : Chain config ls p q arms) : opener? ls q = opener? ls p := by
  induction h with
  | if_ => rfl
  | elseIf _ leaves _ ih => exact ih.trans leaves.continues.opener?.symm

theorem role (h : Chain config ls p q arms) : roleAt ls q = .if_ := by
  induction h with
  | if_ role => exact role
  | elseIf _ _ _ ih => exact ih

theorem links (h : Chain config ls p q arms) : links ls p = arms.length := by
  induction h with
  | if_ role => exact links_eq_zero (by rw [role]; rfl)
  | elseIf told leaves _ ih =>
    rw [links_elseIf told.role leaves.continues.2.1, ih]
    rfl

theorem yields {s : Stmt} (h : Chain config ls p q arms) (hs : Yields config ls p s) :
    Yields config ls q (chained arms s) := by
  induction h generalizing s with
  | if_ => exact hs
  | @elseIf p c i q arm arms told leaves _ ih =>
    have inner : Yields config ls i (.ifElse arm.condition arm.body [s] arm.line) := by
      rw [leaves.line]
      exact .ifElse leaves.tests leaves.continues leaves.body (.elseIf told hs)
    exact ih inner

end Chain

namespace Opens

theorem le (h : Opens config ls p q opener) : q ≤ p := by
  cases h with
  | if_ _ chain => exact chain.le
  | else_ _ leaves chain => exact Nat.le_trans chain.le (Nat.le_of_lt leaves.continues.lt)
  | _ => exact Nat.le_refl _

theorem indent (h : Opens config ls p q opener) : indent ls q = indent ls p := by
  cases h with
  | if_ _ chain => exact chain.indent
  | else_ _ leaves chain => exact chain.indent.trans leaves.continues.2.2
  | _ => rfl

theorem opener? (h : Opens config ls p q opener) : opener? ls q = opener? ls p := by
  cases h with
  | if_ _ chain => exact chain.opener?
  | else_ _ leaves chain => exact chain.opener?.trans leaves.continues.opener?.symm
  | _ => rfl

theorem isClass (h : Opens config ls p q opener) :
    opener.isClass = decide (roleAt ls p = .class_) := by
  cases h with
  | if_ tests =>
    rcases tests with told | told <;> simp [told.role, Opener.isClass, Header.role]
  | class_ told | function told | while_ told | for_ told | foreach told | else_ told =>
    simp [told.role, Opener.isClass, Header.role]

theorem scope? (h : Opens config ls p q opener) :
    opener.scope? = if (roleAt ls p).declares then some (symbolAt ls p) else none := by
  cases h with
  | if_ tests =>
    rcases tests with told | told <;>
      simp [told.role, Opener.scope?, Header.role, Role.declares]
  | class_ told | function told | while_ told | for_ told | foreach told | else_ told =>
    simp [told.role, Opener.scope?, Header.role, Role.declares]

theorem links (h : Opens config ls p q opener) : opener.links = links ls p := by
  cases h with
  | if_ _ chain => exact chain.links.symm
  | else_ told leaves chain =>
    rw [links_else told.role leaves.continues.2.1, chain.links]
    rfl
  | class_ told | function told | while_ told | for_ told | foreach told =>
    refine (links_eq_zero ?_).symm
    rw [told.role]
    rfl

end Opens

namespace Around

theorem length (h : Around config ls k entry b o blocks) :
    blocks.length = o.elim 0 fun p => indent ls p + 1 := by
  cases h with
  | entry => rfl
  | block _ _ _ indent => simp [indent]

theorem any_isClass (h : Around config ls k entry b o blocks) :
    blocks.any (·.opener.isClass) = (openers ls o).any fun p => roleAt ls p = .class_ := by
  induction h with
  | entry => rfl
  | block _ opens _ _ _ _ _ _ ih =>
    rw [openers_some, List.any_cons, List.any_cons, opens.isClass, ih]

theorem findSome?_scope? (h : Around config ls k entry b o blocks) :
    blocks.findSome? (·.opener.scope?) =
      ((openers ls o).find? fun p => (roleAt ls p).declares).map (symbolAt ls) := by
  induction h with
  | entry => rfl
  | @block _ p _ _ _ _ opens _ _ _ _ _ _ ih =>
    rw [openers_some, List.findSome?_cons, List.find?_cons, opens.scope?]
    cases (roleAt ls p).declares with
    | true => rfl
    | false => exact ih

theorem find?_scope?_isClass (h : Around config ls k entry b o blocks) :
    (blocks.find? (·.opener.scope?.isSome)).map (·.opener.isClass) =
      ((openers ls o).find? fun p => (roleAt ls p).declares).map
        fun p => decide (roleAt ls p = .class_) := by
  induction h with
  | entry => rfl
  | @block _ p _ _ _ _ opens _ _ _ _ _ _ ih =>
    rw [openers_some, List.find?_cons, List.find?_cons, opens.scope?]
    cases (roleAt ls p).declares with
    | true => exact congrArg some opens.isClass
    | false => exact ih

theorem foldr_links (h : Around config ls k entry b o blocks) :
    blocks.foldr (fun b n => b.opener.links + n) 0 =
      (openers ls o).foldr (fun p n => links ls p + n) 0 := by
  induction h with
  | entry => rfl
  | block _ opens _ _ _ _ _ _ ih =>
    rw [openers_some, List.foldr_cons, List.foldr_cons, ih, opens.links]

theorem rebound {b' : Nat} (h : Around config ls k entry b o blocks)
    (same : units ls o b' = units ls o b) : Around config ls k entry b' o blocks := by
  cases h with
  | entry body => exact .entry (same ▸ body)
  | block lt opens line indent body deeper chain outer =>
    exact .block lt opens line indent (same ▸ body) deeper chain outer

theorem advance (h : Around config ls k entry b o blocks)
    (deeper : ∀ p, p ∈ openers ls o → indent ls p < indent ls k) :
    Around config ls (k + 1) entry b o blocks := by
  induction h with
  | entry body => exact .entry body
  | @block b p q block outer lt opens line level body since chain _ ih =>
    rw [openers_some, List.forall_mem_cons] at deeper
    refine .block (Nat.lt_succ_of_lt lt) opens line level body ?_ ?_ (ih deeper.2)
    · intro i less lt'
      rcases Nat.lt_succ_iff_lt_or_eq.1 lt' with lt' | rfl
      · exact since i less lt'
      · exact deeper.1
    · intro i less lt'
      rcases Nat.lt_succ_iff_lt_or_eq.1 lt' with lt' | rfl
      · exact chain i less lt'
      · exact .inl (opens.indent.symm ▸ deeper.1)

theorem add {s : State} {stmt : Stmt} {b' : Nat}
    (h : Around config ls k s.entry b o s.blocks) (stmts : Yields config ls i stmt)
    (more : units ls o b' = units ls o b ++ [i]) :
    Around config ls k (s.add stmt).entry b' o (s.add stmt).blocks := by
  obtain ⟨symbols, entry, blocks⟩ := s
  cases h with
  | entry body =>
    refine .entry ?_
    rw [more]
    simpa [State.add] using body.append (.singleton stmts)
  | block lt opens line indent body deeper chain outer =>
    refine .block lt opens line indent ?_ deeper chain outer
    rw [more]
    simpa using body.append (.singleton stmts)

end Around

end Offside.Module
