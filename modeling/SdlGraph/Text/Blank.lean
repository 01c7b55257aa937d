import SdlGraph.Text.CodeRange

/-!
# White space

The characters with the property `White_Space`. A text made of nothing else is blank.
-/

namespace SdlGraph.Text

/-- Code points with the property `White_Space`, in increasing order. -/
def whiteSpaceRanges : List CodeRange :=
  [(0x9, 0xD), (0x20, 0x20), (0x85, 0x85), (0xA0, 0xA0), (0x1680, 0x1680), (0x2000, 0x200A),
    (0x2028, 0x2029), (0x202F, 0x202F), (0x205F, 0x205F), (0x3000, 0x3000)]

/-- Whether a character is white space. -/
def isWhiteSpace (c : Char) : Bool := whiteSpaceRanges.any (·.contains c)

/-- Whether a text holds nothing but white space. -/
def isBlank (text : String) : Bool := text.toList.all isWhiteSpace

theorem isBlank_iff {text : String} :
    isBlank text = true ↔ ∀ c ∈ text.toList, isWhiteSpace c = true := by
  simp [isBlank]

end SdlGraph.Text
