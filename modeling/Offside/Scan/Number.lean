import Offside.Fault

/-!
Number literals. `0x` and hexadecimal digits make an unsigned number; the maximal run of
digits and dots makes a signed one if it has no dot, and a double if it has one that is
not at the end.
-/

namespace Offside.Scan

def hexDigit? (c : Char) : Option Nat :=
  if c.isDigit then some (c.toNat - '0'.toNat)
  else if 'a' ≤ c ∧ c ≤ 'f' then some (c.toNat - 'a'.toNat + 10)
  else if 'A' ≤ c ∧ c ≤ 'F' then some (c.toNat - 'A'.toNat + 10)
  else none

def isHexDigit (c : Char) : Bool :=
  (hexDigit? c).isSome

def hexValue (digits : List Char) : Nat :=
  digits.foldl (fun n c => 16 * n + (hexDigit? c).getD 0) 0

def decimalValue (digits : List Char) : Nat :=
  Nat.ofDigitChars 10 digits 0

def isDigitOrDot (c : Char) : Bool :=
  c.isDigit || c == '.'

def hexNumber (cs : List Char) : Except Fault (Literal × List Char) :=
  let digits := cs.takeWhile isHexDigit
  if digits = [] then .error .incompleteHex
  else if hexValue digits < UInt64.size then
    .ok (.uint (UInt64.ofNat (hexValue digits)), cs.dropWhile isHexDigit)
  else .error (.hexOutOfRange (String.ofList digits))

/-- The number that a run of digits and dots denotes. A second dot is met before the end
of the run, so it goes before a dot at the end. -/
def decimal (run : List Char) : Except Fault Literal :=
  match run.count '.' with
  | 0 =>
    if decimalValue run < Nat.pow 2 63 then .ok (.int (Int64.ofNat (decimalValue run)))
    else .error (.numberOutOfRange (String.ofList run))
  | 1 =>
    if run.getLast? = some '.' then .error .trailingDot
    else
      let places := (run.dropWhile (· != '.')).length - 1
      .ok (.float (Binary64.ofDecimal (decimalValue (run.filter (· != '.'))) places))
  | _ => .error .manyDots

def number : List Char → Except Fault (Literal × List Char)
  | '0' :: 'x' :: rest => hexNumber rest
  | cs => (decimal (cs.takeWhile isDigitOrDot)).map fun l => (l, cs.dropWhile isDigitOrDot)

theorem number_shorter {c : Char} {cs rest : List Char} {l : Literal} (hd : c.isDigit = true)
    (h : number (c :: cs) = .ok (l, rest)) : rest.length ≤ cs.length := by
  unfold number at h
  split at h
  next r he =>
    obtain ⟨_, rfl⟩ := List.cons.inj he
    simp only [hexNumber] at h
    split at h
    · simp at h
    · split at h
      · simp only [Except.ok.injEq, Prod.mk.injEq] at h
        rw [← h.2]
        exact Nat.le_succ_of_le (List.dropWhile_sublist _).length_le
      · simp at h
  next =>
    obtain ⟨v, _, he⟩ := map_eq_ok.1 h
    rw [← (Prod.mk.inj he).2, List.dropWhile_cons_of_pos (by simp [isDigitOrDot, hd])]
    exact (List.dropWhile_sublist _).length_le

end Offside.Scan
