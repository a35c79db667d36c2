/-!
# The Unicode property Default_Ignorable_Code_Point

Characters that show nothing of their own where they are not specially supported, as the closed runs
of their code points in ascending order (Unicode 17). Most are marks or format characters; the four
Hangul fillers are letters.
-/

namespace Stencil.Text

/-- First and last code point of each run of ignorable characters. -/
def defaultIgnorableRuns : List (Nat × Nat) := [
  (0xad, 0xad), (0x34f, 0x34f), (0x61c, 0x61c), (0x115f, 0x1160), (0x17b4, 0x17b5),
  (0x180b, 0x180f), (0x200b, 0x200f), (0x202a, 0x202e), (0x2060, 0x206f), (0x3164, 0x3164),
  (0xfe00, 0xfe0f), (0xfeff, 0xfeff), (0xffa0, 0xffa0), (0xfff0, 0xfff8), (0x1bca0, 0x1bca3),
  (0x1d173, 0x1d17a), (0xe0000, 0xe0fff)]

/-- A character that shows nothing of its own. -/
def isDefaultIgnorable (c : Char) : Bool :=
  0xad ≤ c.toNat && defaultIgnorableRuns.any fun run => run.1 ≤ c.toNat && c.toNat ≤ run.2

end Stencil.Text
