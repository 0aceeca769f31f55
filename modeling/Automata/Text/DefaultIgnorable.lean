import Automata.Text.Ranges

/-! The characters with the property Default_Ignorable_Code_Point of Unicode 17: they are drawn as
nothing at all where they are not supported. Among them are four letters, the fillers of Hangul,
which by their category alone would pass for visible. -/
namespace Automata.Text

def defaultIgnorableRanges : List (Nat × Nat) :=
  [(0xad, 0xad), (0x34f, 0x34f), (0x61c, 0x61c), (0x115f, 0x1160), (0x17b4, 0x17b5),
   (0x180b, 0x180f), (0x200b, 0x200f), (0x202a, 0x202e), (0x2060, 0x206f), (0x3164, 0x3164),
   (0xfe00, 0xfe0f), (0xfeff, 0xfeff), (0xffa0, 0xffa0), (0xfff0, 0xfff8), (0x1bca0, 0x1bca3),
   (0x1d173, 0x1d17a), (0xe0000, 0xe0fff)]

/-- Whether the character is drawn as nothing by default. -/
def isDefaultIgnorable (c : Char) : Bool := inRanges defaultIgnorableRanges c

theorem defaultIgnorableRanges_ascending : ascendingFrom 0 defaultIgnorableRanges = true := by
  decide +kernel

theorem isDefaultIgnorable_eq_true {c : Char} :
    isDefaultIgnorable c = true ↔
      ∃ range ∈ defaultIgnorableRanges, range.1 ≤ c.toNat ∧ c.toNat ≤ range.2 :=
  inRanges_eq_true defaultIgnorableRanges_ascending

end Automata.Text
