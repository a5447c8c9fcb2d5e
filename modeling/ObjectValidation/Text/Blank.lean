/-!
# Blank characters

Which characters count as white space, and cutting them off both ends of a text.
-/

namespace ObjectValidation.Text

/-- Whether the character has the property White_Space of the Unicode standard. -/
def isBlank (c : Char) : Bool :=
  let n := c.toNat
  (0x9 ≤ n && n ≤ 0xD) || n == 0x20 || n == 0x85 || n == 0xA0 || n == 0x1680 ||
    (0x2000 ≤ n && n ≤ 0x200A) || n == 0x2028 || n == 0x2029 || n == 0x202F || n == 0x205F ||
    n == 0x3000

/-- The text without the blanks at its two ends. -/
def trim (s : String) : String :=
  String.ofList ((s.toList.dropWhile isBlank).reverse.dropWhile isBlank).reverse

/-- Whether the text has no character other than blanks. -/
def allBlank (s : String) : Bool := s.toList.all isBlank

end ObjectValidation.Text
