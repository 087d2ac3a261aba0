/-!
# Blank characters

A character is blank if it has the Unicode property `White_Space`. Rule notation may hold blanks
between any two lexemes, and a line of blanks holds no sentence.

## Main definitions

* `Text.isBlank`: the property `White_Space`.
* `Text.isBlankLine`: a text of blanks alone.
-/

namespace NounPhrase.Text

/-- The Unicode property `White_Space`. -/
def isBlank (c : Char) : Bool :=
  (0x9 ≤ c.val && c.val ≤ 0xD) || c.val == 0x20 || c.val == 0x85 || c.val == 0xA0 ||
  c.val == 0x1680 || (0x2000 ≤ c.val && c.val ≤ 0x200A) || c.val == 0x2028 || c.val == 0x2029 ||
  c.val == 0x202F || c.val == 0x205F || c.val == 0x3000

/-- Whether a text has blanks only. -/
def isBlankLine (s : String) : Bool := s.toList.all isBlank

end NounPhrase.Text
