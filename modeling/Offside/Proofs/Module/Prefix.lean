import Offside.Proofs.Module.Fault
import Offside.Proofs.Module.Run

/-!
The first lines of a module. Lines are read one by one and nothing can fail behind the last of
them, so that a fault belongs to the line that ends the shortest list of first lines with a
fault, and no line behind that one changes it.
-/

namespace Offside.Module

variable {config : Config} {name : String} {ls : List Line} {k : Nat} {s t : State} {e : Error}

theorem State.Sound.done_isOk (h : s.Sound) : ∃ t, s.done = .ok t := by
  obtain ⟨t, ht, sound⟩ := h.leaveMany (s.blocks.length - 0)
  obtain ⟨name, root⟩ := sound.wellFormed.root
  obtain ⟨u, hu⟩ := sound.wellFormed.setFunction_isOk ⟨[], t.entry.reverse⟩ root rfl
  exact ⟨u, bind_eq_ok.2 ⟨t, ht, hu⟩⟩

section Lines

theorem readAll_cons (l : Line) : s.readAll config (l :: ls) =
    atLine l.number (s.step config l) >>= fun t => t.readAll config ls := by
  rw [State.readAll, List.foldlM_cons]
  rfl

theorem step_of_readAll_error (h : s.readAll config ls = .error e) :
    ∃ k t, k < ls.length ∧ s.readAll config (ls.take k) = .ok t ∧
      atLine (number ls k) (t.step config (lineAt ls k)) = .error e := by
  induction ls generalizing s with
  | nil => cases h
  | cons l ls ih =>
    rw [readAll_cons] at h
    rcases bind_eq_error.1 h with first | ⟨u, first, h⟩
    · exact ⟨0, s, Nat.succ_pos _, rfl, first⟩
    · obtain ⟨k, t, lt, before, found⟩ := ih h
      refine ⟨k + 1, t, Nat.succ_lt_succ lt, ?_, found⟩
      rw [List.take_succ_cons, readAll_cons, first]
      exact before

theorem readAll_append_of_error {a : List Line} (h : s.readAll config a = .error e)
    (b : List Line) : s.readAll config (a ++ b) = .error e := by
  rw [State.readAll_append, h]
  rfl

theorem readAll_take_isOk (h : s.readAll config ls = .ok t) (k : Nat) :
    ∃ u, s.readAll config (ls.take k) = .ok u := by
  rw [← List.take_append_drop k ls, State.readAll_append] at h
  obtain ⟨u, hu, -⟩ := bind_eq_ok.1 h
  exact ⟨u, hu⟩

end Lines

section Symbols

theorem symbolsOf_eq_error :
    symbolsOf config name ls = .error e ↔ (State.start name).readAll config ls = .error e := by
  constructor
  · intro h
    rcases bind_eq_error.1 h with h | ⟨s, read, h⟩
    · exact h
    · obtain ⟨t, done⟩ := (((State.Sound.start name).readAll config ls).1 s read).done_isOk
      rw [done] at h
      cases h
  · exact fun h => bind_eq_error.2 (.inl h)

theorem exists_symbolsOf (h : (State.start name).readAll config ls = .ok s) :
    ∃ t, symbolsOf config name ls = .ok t := by
  obtain ⟨t, done⟩ := (((State.Sound.start name).readAll config ls).1 s h).done_isOk
  exact ⟨t, bind_eq_ok.2 ⟨s, h, atLine_eq_ok.2 done⟩⟩

/-- The line at `k` is the first with a fault: all lists of lines up to it are accepted, and
with it there is this one error, placed at the line, whatever comes behind. -/
structure FailsAt (config : Config) (name : String) (ls : List Line) (k : Nat) (e : Error) :
    Prop where
  lt : k < ls.length
  before : ∀ j, j ≤ k → ∃ t, symbolsOf config name (ls.take j) = .ok t
  line : e.line = number ls k
  final : ∀ more, symbolsOf config name (ls.take (k + 1) ++ more) = .error e

/-- An error is placed at the line that ends the shortest list of first lines with an error;
that list has the same error, and so has every list that begins with it. If lines are accepted,
so are the first of them. -/
theorem symbolsOf_failsAt (config : Config) (name : String) (ls : List Line) :
    (∀ e, symbolsOf config name ls = .error e → ∃ k, FailsAt config name ls k e) ∧
      ∀ t, symbolsOf config name ls = .ok t →
        ∀ k, ∃ u, symbolsOf config name (ls.take k) = .ok u := by
  constructor
  · intro e h
    obtain ⟨k, t, lt, read, found⟩ := step_of_readAll_error (symbolsOf_eq_error.1 h)
    refine ⟨k, lt, fun j le => ?_, (atLine_eq_error.1 found).1, fun more => ?_⟩
    · obtain ⟨u, hu⟩ := readAll_take_isOk read j
      rw [List.take_take, Nat.min_eq_left le] at hu
      exact exists_symbolsOf hu
    · have here : (State.start name).readAll config (ls.take (k + 1)) = .error e := by
        rw [take_succ_lines lt, State.readAll_append, read]
        exact (readAll_singleton t _).trans found
      exact symbolsOf_eq_error.2 (readAll_append_of_error here more)
  · intro t h k
    obtain ⟨s, read, -⟩ := bind_eq_ok.1 h
    obtain ⟨u, hu⟩ := readAll_take_isOk read k
    exact exists_symbolsOf hu

theorem symbolsOf_failsAt_class :
    let return_ : Lexeme := ⟨.keyword .return_, none⟩
    let ls : List Line := [⟨2, 0, [⟨.keyword .class_, none⟩, .ofWord "A"]⟩,
      ⟨3, 1, [⟨.keyword .function, none⟩, .ofWord "f"]⟩, ⟨5, 2, [return_]⟩, ⟨8, 1, [return_]⟩,
      ⟨9, 7, []⟩]
    (symbolsOf {} "m" ls = .error ⟨8, .outsideFunction⟩ ∧
      ∃ k, FailsAt {} "m" ls k ⟨8, .outsideFunction⟩) ∧
    (∃ t, symbolsOf {} "m" (ls.take 3) = .ok t) ∧
      ∀ k, ∃ u, symbolsOf {} "m" ((ls.take 3).take k) = .ok u := by
  intro return_ ls
  have fails : symbolsOf {} "m" ls = .error ⟨8, .outsideFunction⟩ := rfl
  exact ⟨⟨fails, (symbolsOf_failsAt {} "m" ls).1 _ fails⟩, ⟨_, rfl⟩,
    (symbolsOf_failsAt {} "m" (ls.take 3)).2 _ rfl⟩

end Symbols

end Offside.Module
