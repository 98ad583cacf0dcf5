import Scriptlet.Text.Utf8

/-!
# White space

White space in the sense of Unicode, and texts trimmed of it.
-/

namespace Scriptlet

namespace Text

def isWhiteSpace (code : Nat) : Bool :=
  (0x09 ≤ code && code ≤ 0x0d) || code = 0x20 || code = 0x85 || code = 0xa0 || code = 0x1680
    || (0x2000 ≤ code && code ≤ 0x200a) || code = 0x2028 || code = 0x2029 || code = 0x202f
    || code = 0x205f || code = 0x3000

def isBlankPiece : Utf8.Piece → Bool
  | .character code _ => isWhiteSpace code
  | .stray _ => false

/-- A text without the white space at either end. -/
def trimmed (s : Text) : Text :=
  (((Utf8.pieces s).dropWhile isBlankPiece).reverse.dropWhile isBlankPiece).reverse.flatMap
    Utf8.Piece.bytes

end Text

end Scriptlet
