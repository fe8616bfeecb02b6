/-! Sets of characters given by sorted ranges of code points. -/
namespace ScriptBundle

/-- Ranges of code points, both ends included, in ascending order. -/
structure Charset where
  ranges : List (Nat × Nat)

namespace Charset

def within (code : Nat) : List (Nat × Nat) → Bool
  | [] => false
  | (low, high) :: rest => if code < low then false else code ≤ high || within code rest

def has (set : Charset) (c : Char) : Bool := within c.toNat set.ranges

end Charset
end ScriptBundle
