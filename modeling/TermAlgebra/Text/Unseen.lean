/-!
# Characters that show nothing of their own

Ranges of code points of the general categories control, format, private use and separator
(without the plain space), and of the blocks of combining marks.
-/

namespace TermAlgebra.Text

def invisibleRanges : List (Nat × Nat) :=
  [(0x0, 0x1f), (0x7f, 0xa0), (0xad, 0xad), (0x600, 0x605), (0x61c, 0x61c), (0x6dd, 0x6dd),
   (0x70f, 0x70f), (0x890, 0x891), (0x8e2, 0x8e2), (0x1680, 0x1680), (0x180e, 0x180e),
   (0x2000, 0x200f), (0x2028, 0x202f), (0x205f, 0x2064), (0x2066, 0x206f), (0x3000, 0x3000),
   (0xe000, 0xf8ff), (0xfeff, 0xfeff), (0xfff9, 0xfffb), (0x110bd, 0x110bd),
   (0x110cd, 0x110cd), (0x13430, 0x13438), (0x1bca0, 0x1bca3), (0x1d173, 0x1d17a),
   (0xe0001, 0xe0001), (0xe0020, 0xe007f), (0xf0000, 0xffffd), (0x100000, 0x10fffd)]

def combiningRanges : List (Nat × Nat) :=
  [(0x300, 0x36f), (0x1ab0, 0x1aff), (0x1dc0, 0x1dff), (0x20d0, 0x20ff), (0xfe00, 0xfe0f),
   (0xfe20, 0xfe2f)]

def inRanges (ranges : List (Nat × Nat)) (c : Char) : Bool :=
  ranges.any fun r => r.1 ≤ c.toNat && c.toNat ≤ r.2

/-- Printed alone, the character leaves nothing to see, or changes the character before it. -/
def isUnseen (c : Char) : Bool := inRanges invisibleRanges c || inRanges combiningRanges c

example : "é∀λ→ ~😀".toList.any isUnseen = false := by decide

example : ['\x00', '\x1f', '\x7f', '\u00a0', '\u00ad', '\u200b', '\u2028'].all isUnseen = true := by
  decide

end TermAlgebra.Text
