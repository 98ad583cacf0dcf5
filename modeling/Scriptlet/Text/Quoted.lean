import Scriptlet.Text.Printable
import Scriptlet.Text.Utf8

/-!
# Quoted text

A text between double quotes, in which every byte can be told: quotes and
backslashes are escaped, printable characters stand for themselves, the usual
controls have short names, and what is left is written in hexadecimal. Stray
bytes are written one by one.
-/

namespace Scriptlet

namespace Text

/-- The short names of control characters. -/
def controlNames : List (Nat × Text) :=
  [(0x07, text "\\a"), (0x08, text "\\b"), (0x0c, text "\\f"), (0x0a, text "\\n"),
   (0x0d, text "\\r"), (0x09, text "\\t"), (0x0b, text "\\v")]

/-- A byte as `\x` and two digits. -/
def hexEscape (n : Nat) : Text := text "\\x" ++ hex 2 n

/-- A character between quotes of the kind given. -/
def quotedCharacter (quote : UInt8) (code : Nat) (bytes : Text) : Text :=
  if code = quote.toNat || code = 0x5c then Byte.backslash :: bytes
  else if isPrintable code then bytes
  else
    match controlNames.lookup code with
    | some name => name
    | none =>
        if code < 0x20 || code = 0x7f then hexEscape code
        else if code < 0x10000 then text "\\u" ++ hex 4 code
        else text "\\U" ++ hex 8 code

def quotedPiece : Utf8.Piece → Text
  | .character code bytes => quotedCharacter Byte.quote code bytes
  | .stray byte => hexEscape byte.toNat

def quoted (s : Text) : Text :=
  text "\"" ++ (Utf8.pieces s).flatMap quotedPiece ++ text "\""

/-- Quoted for a plain terminal: every byte outside printable ASCII is written
in hexadecimal. -/
def quotedAscii (s : Text) : Text :=
  let byte (c : UInt8) : Text :=
    if c = Byte.quote || c = Byte.backslash then [Byte.backslash, c]
    else if c < 0x20 || 0x80 ≤ c then hexEscape c.toNat
    else [c]
  text "\"" ++ s.flatMap byte ++ text "\""

end Text

end Scriptlet
