import AutoProperty.Text.Unicode.CodeRanges

/-! # Blanks

The characters that count as white space, and trimming them.
-/

namespace AutoProperty

/-- The code points with the property White_Space. -/
def blankCodes : CodeRanges :=
  [(0x9, 0xD), (0x20, 0x20), (0x85, 0x85), (0xA0, 0xA0), (0x1680, 0x1680), (0x2000, 0x200A),
   (0x2028, 0x2029), (0x202F, 0x202F), (0x205F, 0x205F), (0x3000, 0x3000)]

/-- The code points of the category for spaces (Zs). -/
def spaceCodes : CodeRanges :=
  [(0x20, 0x20), (0xA0, 0xA0), (0x1680, 0x1680), (0x2000, 0x200A), (0x202F, 0x202F),
   (0x205F, 0x205F), (0x3000, 0x3000)]

/-- The property White_Space. -/
def isBlank (c : Char) : Bool :=
  blankCodes.contains c

def isSpaceSeparator (c : Char) : Bool :=
  spaceCodes.contains c

def trimBlankStart (cs : List Char) : List Char :=
  cs.dropWhile isBlank

def trimBlankEnd (cs : List Char) : List Char :=
  (cs.reverse.dropWhile isBlank).reverse

def trimBlanks (cs : List Char) : List Char :=
  trimBlankEnd (trimBlankStart cs)

end AutoProperty
