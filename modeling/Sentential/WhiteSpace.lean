/-!
The Unicode property `White_Space`, as the list of its ranges of code points. It has 25 members.
-/
namespace Sentential

/-- First and last code point of each range of `White_Space`, in ascending order. -/
def whiteSpaceRanges : List (Nat × Nat) :=
  [(0x09, 0x0D), (0x20, 0x20), (0x85, 0x85), (0xA0, 0xA0), (0x1680, 0x1680), (0x2000, 0x200A),
    (0x2028, 0x2029), (0x202F, 0x202F), (0x205F, 0x205F), (0x3000, 0x3000)]

def isWhiteSpace (c : Char) : Bool :=
  whiteSpaceRanges.any fun (first, last) => first ≤ c.toNat && c.toNat ≤ last

example : (whiteSpaceRanges.map fun (first, last) => last + 1 - first).sum = 25 := rfl

end Sentential
