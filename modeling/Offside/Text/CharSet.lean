/-!
Sets of characters as inversion lists: the ascending code points at which
membership flips, starting from outside. Adjacent ranges share a boundary, so
the list is half as long as a list of ranges and needs no end for the last one.
-/

namespace Offside.Text

structure CharSet where
  flips : List Nat

namespace CharSet

def covers : List Nat → Nat → Bool
  | [], _ => false
  | flip :: rest, n => if n < flip then false else !covers rest n

def mem (s : CharSet) (c : Char) : Bool :=
  covers s.flips c.toNat

end CharSet

end Offside.Text
