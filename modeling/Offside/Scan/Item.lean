import Offside.Scan.Comment
import Offside.Scan.Number
import Offside.Scan.Word

/-!
One step through a source: the lexeme, the blank or the line break that comes first, and
the text behind it. Punctuation is read by the longest spelling that fits.
-/

namespace Offside.Scan

inductive Item
  | lexeme (l : Lexeme)
  | blank (breaks : Nat)
  | newline
  deriving DecidableEq, Repr

def symbol? (cs : List Char) : Option (Kind × List Char) :=
  (Kind.symbols.find? fun k => k.text.toList.isPrefixOf cs).map fun k =>
    (k, cs.drop k.text.toList.length)

theorem text_ne_nil_of_mem_symbols : ∀ k ∈ Kind.symbols, 0 < k.text.toList.length := by
  decide

theorem symbol?_shorter {cs rest : List Char} {k : Kind} (h : symbol? cs = some (k, rest)) :
    rest.length < cs.length := by
  obtain ⟨j, hj, he⟩ := Option.map_eq_some_iff.1 h
  have hpos := text_ne_nil_of_mem_symbols j (List.mem_of_find?_eq_some hj)
  have hp : j.text.toList.isPrefixOf cs = true := by simpa using List.find?_some hj
  have hle := (List.isPrefixOf_iff_prefix.1 hp).length_le
  simp only [Prod.mk.injEq] at he
  rw [← he.2, List.length_drop]
  omega

def sigilName (c : Char) (rest : List Char) : Except Fault (Item × List Char) :=
  match c, rest with
  | ':', ':' :: d :: cs =>
    if isWordStart d then
      .ok (.lexeme (.ofIdent ⟨word (d :: cs), .scope⟩), afterWord (d :: cs))
    else .error (.unexpectedCharacter ':')
  | '@', d :: cs =>
    if isWordStart d then
      .ok (.lexeme (.ofIdent ⟨word (d :: cs), .member⟩), afterWord (d :: cs))
    else .error (.unexpectedCharacter '@')
  | c, _ => .error (.unexpectedCharacter c)

theorem sigilName_shorter {c : Char} {cs rest : List Char} {i : Item}
    (h : sigilName c cs = .ok (i, rest)) : rest.length ≤ cs.length := by
  unfold sigilName at h
  split at h
  · split at h
    next d r hw =>
      simp only [Except.ok.injEq, Prod.mk.injEq] at h
      have := afterWord_shorter r hw
      simp only [← h.2, List.length_cons]
      omega
    · simp at h
  · split at h
    next d r hw =>
      simp only [Except.ok.injEq, Prod.mk.injEq] at h
      have := afterWord_shorter r hw
      simp only [← h.2, List.length_cons]
      omega
    · simp at h
  · simp at h

def next (c : Char) (rest : List Char) : Except Fault (Item × List Char) :=
  if c = '\n' then .ok (.newline, rest)
  else if c = ' ' ∨ c = '\t' ∨ c = '\r' then .ok (.blank 0, rest)
  else if c = ';' then (comment rest).map fun (n, rest) => (.blank n, rest)
  else if c = '"' then
    match Text.Quoted.decode rest with
    | .ok (s, rest) => .ok (.lexeme (.ofLiteral (.str (String.ofList s))), rest)
    | .error d => .error (.ofQuoted d)
  else if c.isDigit then
    (number (c :: rest)).map fun (l, rest) => (.lexeme (.ofLiteral l), rest)
  else if isWordStart c then
    .ok (.lexeme (.ofWord (word (c :: rest))), afterWord (c :: rest))
  else
    match symbol? (c :: rest) with
    | some (k, rest) => .ok (.lexeme ⟨k, none⟩, rest)
    | none => sigilName c rest

theorem next_shorter {c : Char} {cs rest : List Char} {i : Item}
    (h : next c cs = .ok (i, rest)) : rest.length ≤ cs.length := by
  unfold next at h
  split at h
  · simp only [Except.ok.injEq, Prod.mk.injEq] at h
    simp [h.2]
  split at h
  · simp only [Except.ok.injEq, Prod.mk.injEq] at h
    simp [h.2]
  split at h
  · obtain ⟨p, hc, he⟩ := map_eq_ok.1 h
    exact (Prod.mk.inj he).2 ▸ comment_shorter hc
  split at h
  · split at h
    next s r hq =>
      simp only [Except.ok.injEq, Prod.mk.injEq] at h
      exact h.2 ▸ Nat.le_of_lt (Text.Quoted.decode_shorter hq)
    · simp at h
  split at h
  next hd =>
    obtain ⟨p, hn, he⟩ := map_eq_ok.1 h
    exact (Prod.mk.inj he).2 ▸ number_shorter hd hn
  split at h
  next hw =>
    simp only [Except.ok.injEq, Prod.mk.injEq] at h
    exact h.2 ▸ afterWord_shorter cs hw
  split at h
  next k r hs =>
    simp only [Except.ok.injEq, Prod.mk.injEq] at h
    have := symbol?_shorter hs
    simp only [List.length_cons] at this
    exact h.2 ▸ Nat.le_of_lt_succ this
  · exact sigilName_shorter h

end Offside.Scan
