import Scriptlet.Text.Basic

/-!
# Characters in byte text

`Utf8.decode?` reads the character at the head of a text. Overlong forms,
surrogates and numbers above U+10FFFF are malformed, and a malformed head
counts as one byte, so `Utf8.headWidth` of a non-empty text is never zero.
`Utf8.pieces` cuts a whole text into characters and stray bytes.
-/

namespace Scriptlet

namespace Utf8

/-- A byte that continues a character. -/
def isContinuation (c : UInt8) : Bool := 0x80 ≤ c && c ≤ 0xbf

/-- Appends the six payload bits of a continuation byte. -/
def extend (n : Nat) (c : UInt8) : Nat := 64 * n + (c.toNat - 0x80)

/-- The bounds on the second byte that keep out overlong forms, surrogates
and numbers above U+10FFFF. -/
def secondBounds (c : UInt8) : UInt8 × UInt8 :=
  if c = 0xe0 then (0xa0, 0xbf)
  else if c = 0xed then (0x80, 0x9f)
  else if c = 0xf0 then (0x90, 0xbf)
  else if c = 0xf4 then (0x80, 0x8f)
  else (0x80, 0xbf)

/-- The code point at the head of a text and the number of bytes it takes. -/
def decode? : Text → Option (Nat × Nat)
  | [] => none
  | c :: s =>
      let (low, high) := secondBounds c
      if c < 0x80 then some (c.toNat, 1)
      else if 0xc2 ≤ c && c ≤ 0xdf then
        match s with
        | d :: _ =>
            if isContinuation d then some (extend (c.toNat - 0xc0) d, 2) else none
        | _ => none
      else if 0xe0 ≤ c && c ≤ 0xef then
        match s with
        | d :: e :: _ =>
            if low ≤ d && d ≤ high && isContinuation e then
              some (extend (extend (c.toNat - 0xe0) d) e, 3)
            else none
        | _ => none
      else if 0xf0 ≤ c && c ≤ 0xf4 then
        match s with
        | d :: e :: f :: _ =>
            if low ≤ d && d ≤ high && isContinuation e && isContinuation f then
              some (extend (extend (extend (c.toNat - 0xf0) d) e) f, 4)
            else none
        | _ => none
      else none

/-- The bytes that the head of a text takes: those of its character, or one
when the head is malformed. -/
def headWidth (s : Text) : Nat :=
  match decode? s with
  | some (_, width) => width
  | none => min 1 s.length

/-- One piece of a text: a character with its bytes, or a stray byte. -/
inductive Piece where
  | character (code : Nat) (bytes : Text)
  | stray (byte : UInt8)

/-- The pieces of a text, where the first `skip` bytes belong to a piece that
was already taken. -/
def piecesAfter : Nat → Text → List Piece
  | _, [] => []
  | skip + 1, _ :: s => piecesAfter skip s
  | 0, c :: s =>
      match decode? (c :: s) with
      | some (code, width) =>
          .character code ((c :: s).take width) :: piecesAfter (width - 1) s
      | none => .stray c :: piecesAfter 0 s

def pieces (s : Text) : List Piece := piecesAfter 0 s

def Piece.bytes : Piece → Text
  | .character _ bytes => bytes
  | .stray byte => [byte]

end Utf8

end Scriptlet
