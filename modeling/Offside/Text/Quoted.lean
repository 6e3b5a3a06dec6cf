import Offside.Result

/-!
Text in double quotes, on one line, with backslash escapes. Main statement: reading
what was written gives the text back and stops right behind the closing quote.
-/

namespace Offside.Text.Quoted

inductive Defect
  | unterminated
  | badEscape (c : Char)
  deriving DecidableEq, Repr

def letter? : Char → Option Char
  | '"' => some '"'
  | '\\' => some '\\'
  | '\n' => some 'n'
  | '\t' => some 't'
  | '\r' => some 'r'
  | '\x00' => some '0'
  | _ => none

def meaning? : Char → Option Char
  | '"' => some '"'
  | '\\' => some '\\'
  | 'n' => some '\n'
  | 't' => some '\t'
  | 'r' => some '\r'
  | '0' => some '\x00'
  | _ => none

theorem meaning?_of_letter? {c l : Char} (h : letter? c = some l) : meaning? l = some c := by
  unfold letter? at h
  split at h <;> simp_all <;> subst h <;> rfl

theorem letter?_eq_none {c : Char} (h : letter? c = none) :
    c ≠ '"' ∧ c ≠ '\\' ∧ c ≠ '\n' := by
  refine ⟨?_, ?_, ?_⟩ <;> rintro rfl <;> simp [letter?] at h

def encodeChar (c : Char) : List Char :=
  match letter? c with
  | some l => ['\\', l]
  | none => [c]

def encode (s : List Char) : List Char :=
  s.flatMap encodeChar

/-- Reads up to the closing quote, the opening one being behind. A backslash at the end
of the input escapes nothing, which counts as escaping NUL. -/
def decode : List Char → Except Defect (List Char × List Char)
  | [] => .error .unterminated
  | '"' :: rest => .ok ([], rest)
  | '\n' :: _ => .error .unterminated
  | ['\\'] => .error (.badEscape '\x00')
  | '\\' :: l :: rest =>
    match meaning? l with
    | some c => (decode rest).map fun (s, rest) => (c :: s, rest)
    | none => .error (.badEscape l)
  | c :: rest => (decode rest).map fun (s, rest) => (c :: s, rest)

theorem decode_plain {c : Char} (h : c ≠ '"' ∧ c ≠ '\\' ∧ c ≠ '\n') (rest : List Char) :
    decode (c :: rest) = (decode rest).map fun (s, rest) => (c :: s, rest) := by
  obtain ⟨hq, hb, hn⟩ := h
  rw [decode] <;> simp_all

theorem decode_encode (s rest : List Char) :
    decode (encode s ++ '"' :: rest) = .ok (s, rest) := by
  induction s with
  | nil => rfl
  | cons c s ih =>
    simp only [encode, List.flatMap_cons, List.append_assoc, encodeChar] at ih ⊢
    split
    next l h =>
      simp only [List.cons_append, List.nil_append, decode, meaning?_of_letter? h, ih, Except.map]
    next h =>
      rw [List.singleton_append, decode_plain (letter?_eq_none h), ih]
      rfl

theorem decode_shorter {s rest : List Char} {cs : List Char} (h : decode cs = .ok (s, rest)) :
    rest.length < cs.length := by
  induction cs using decode.induct generalizing s with
  | case1 => simp [decode] at h
  | case2 => simp [decode] at h; simp [h]
  | case3 => simp [decode] at h
  | case4 => simp [decode] at h
  | case5 l r c hm ih =>
    simp only [decode, hm] at h
    obtain ⟨⟨t, q⟩, hd, he⟩ := map_eq_ok.1 h
    obtain ⟨rfl, rfl⟩ := Prod.mk.inj he
    have : q.length < r.length := ih hd
    simp only [List.length_cons]
    omega
  | case6 l r hm => simp [decode, hm] at h
  | case7 c r h1 h2 h3 h4 ih =>
    rw [decode] at h
    · obtain ⟨⟨t, q⟩, hd, he⟩ := map_eq_ok.1 h
      obtain ⟨rfl, rfl⟩ := Prod.mk.inj he
      have : q.length < r.length := ih hd
      simp only [List.length_cons]
      omega
    all_goals assumption

end Offside.Text.Quoted
