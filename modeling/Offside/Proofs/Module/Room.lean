import Offside.Proofs.Module.Prefix
import Offside.Proofs.Module.Reading
import Offside.Proofs.Module.Trace

/-!
Room in the open blocks. Whatever lines are read, each open block was within the limit when it was
opened, and each if statement stood where a statement may stand.
-/

namespace Offside.Module

/-- Each block was opened within the limit, and an if statement where statements may stand. -/
inductive Roomy (limit : Nat) : List Opener → Prop
  | nil : Roomy limit []
  | cons {o stack} : stack.length + (stack.map Opener.links).sum + o.links < limit →
      (∀ c chain, o = .if_ c chain →
        ((stack.find? (·.scope?.isSome)).map Opener.isClass).getD false = false) →
      Roomy limit stack → Roomy limit (o :: stack)

theorem Roomy.drop {limit : Nat} {stack : List Opener} (h : Roomy limit stack) (n : Nat) :
    Roomy limit (stack.drop n) := by
  induction h generalizing n with
  | nil =>
    rw [List.drop_nil]
    exact .nil
  | cons room free rest ih =>
    cases n with
    | zero => exact .cons room free rest
    | succ n => exact ih n

namespace State

variable {config : Config} {limit line : Nat} {s s' t outer : State} {o : Opener} {arm : Arm}
  {chain : List Arm}

theorem links_eq_openers (s : State) : s.links = (s.openers.map Opener.links).sum := by
  rw [links, openers, List.map_map, List.sum_eq_foldr, List.foldr_map]
  rfl

theorem directlyInClass_eq_openers (s : State) : s.directlyInClass =
    ((s.openers.find? (·.scope?.isSome)).map Opener.isClass).getD false := by
  rw [directlyInClass, openers, List.find?_map, Option.map_map]
  rfl

theorem roomy_enter (h : Roomy limit s.openers) (ok : s.enter limit o line = .ok s')
    (free : ∀ c chain, o = .if_ c chain → s.directlyInClass = false) : Roomy limit s'.openers := by
  obtain ⟨room, rfl⟩ := enter_eq_ok.1 ok
  rw [← length_openers, links_eq_openers] at room
  rw [directlyInClass_eq_openers] at free
  exact .cons room free h

theorem roomy_openArm {d : Nat} (h : Roomy limit s.openers)
    (found : s.openArm? d = some (arm, chain, outer)) : outer.blocks.length = d ∧
      outer.blocks.length + outer.links + chain.length < limit ∧
      outer.directlyInClass = false ∧ Roomy limit outer.openers := by
  unfold openArm? at found
  split at found
  · next c chain line body outer' blocks =>
    split at found
    · next level =>
      cases found
      rw [openers, blocks] at h
      cases h with
      | cons room free rest =>
        refine ⟨level, ?_, ?_, rest⟩
        · rw [← length_openers, links_eq_openers]
          exact room
        · rw [directlyInClass_eq_openers]
          exact free c chain rfl
    · cases found
  · cases found

theorem roomy_perform {hd : Header} (h : Roomy config.maxDepth s.openers)
    (ok : s.perform config line hd = .ok s') : Roomy config.maxDepth s'.openers := by
  cases hd using Header.byEffect with
  | opens hd o opens =>
    obtain ⟨free, entered⟩ := (perform_opener opens).1 ok
    exact roomy_enter h entered fun _ _ _ => free
  | leaf hd leaf =>
    obtain ⟨stmt, leaf⟩ := leaf line
    obtain ⟨-, rfl⟩ := (perform_leaf leaf).1 ok
    rwa [openers_add]
  | class_ name =>
    obtain ⟨u, id, v, -, -, entered⟩ := perform_class.1 ok
    exact roomy_enter (s := { s with symbols := v }) h entered nofun
  | function name arguments =>
    obtain ⟨u, id, v, -, -, entered⟩ := perform_function.1 ok
    exact roomy_enter (s := { s with symbols := v }) h entered nofun
  | elseIf | else_ => cases ok

theorem roomy_read {ws : List Lexeme} (h : Roomy config.maxDepth s.openers)
    (ok : s.read config line ws = .ok s') : Roomy config.maxDepth s'.openers := by
  cases ws with
  | nil =>
    cases ok
    exact h
  | cons first rest =>
    rw [read_cons] at ok
    obtain ⟨hd, -, ok⟩ := bind_eq_ok.1 ok
    exact roomy_perform h ok

theorem roomy_otherwise {rest : List Lexeme} (h : Roomy config.maxDepth s.openers)
    (free : s.directlyInClass = false) (ok : s.otherwise config line rest arm chain = .ok s') :
    Roomy config.maxDepth s'.openers := by
  rw [otherwise_eq_parse] at ok
  obtain ⟨hd, -, ok⟩ := bind_eq_ok.1 ok
  cases hd with
  | elseIf | else_ => exact roomy_enter h ok fun _ _ _ => free
  | _ => cases ok

theorem roomy_leaveTo {d : Nat} (h : Roomy limit s.openers) (ok : s.leaveTo d = .ok t) :
    Roomy limit t.openers := by
  rw [(leaveMany_effect ok).1]
  exact h.drop _

theorem roomy_step {l : Line} (h : Roomy config.maxDepth s.openers)
    (ok : s.step config l = .ok s') : Roomy config.maxDepth s'.openers := by
  rw [step, if_neg (Nat.not_lt.2 (le_of_step ok))] at ok
  obtain ⟨t, left, ok⟩ := bind_eq_ok.1 ok
  have here := roomy_leaveTo h left
  split at ok
  · next found _ =>
    obtain ⟨-, -, free, around⟩ := roomy_openArm here found
    exact roomy_otherwise around free ok
  · obtain ⟨u, left', ok⟩ := bind_eq_ok.1 ok
    exact roomy_read (roomy_leaveTo here left') ok

theorem roomy_readAll {ls : List Line} (h : Roomy config.maxDepth s.openers)
    (ok : s.readAll config ls = .ok s') : Roomy config.maxDepth s'.openers := by
  induction ls generalizing s with
  | nil =>
    cases ok
    exact h
  | cons l ls ih =>
    rw [readAll_cons] at ok
    obtain ⟨t, step, ok⟩ := bind_eq_ok.1 ok
    exact ih (roomy_step h (atLine_eq_ok.1 step)) ok

end State

end Offside.Module
