import Scriptlet.Text.Basic

/-!
# Positions

A position counts rows, columns and offsets in bytes from zero and remembers
where its line begins. Reading a text moves a position byte by byte
(`Position.advance`), so the true position of an offset is `advance` of the
start over the bytes before it.
-/

namespace Scriptlet

structure Position where
  row : Nat
  col : Nat
  offset : Nat
  lineBegin : Nat
deriving DecidableEq, Repr

namespace Position

def start : Position := ⟨0, 0, 0, 0⟩

instance : Inhabited Position := ⟨start⟩

/-- The position after one byte: a newline ends its row. -/
def step (p : Position) (c : UInt8) : Position :=
  if c = Byte.newline then ⟨p.row + 1, 0, p.offset + 1, p.offset + 1⟩
  else { p with col := p.col + 1, offset := p.offset + 1 }

def advance (p : Position) (s : Text) : Position := s.foldl step p

/-- The position one column further on the same row. -/
def right (p : Position) : Position := { p with col := p.col + 1, offset := p.offset + 1 }

/-- Row and column as people count them, from one. -/
def render (p : Position) : Text := Text.ofNat (p.row + 1) ++ text ":" ++ Text.ofNat (p.col + 1)

@[simp] theorem advance_nil (p : Position) : p.advance [] = p := rfl

@[simp] theorem advance_cons (p : Position) (c : UInt8) (s : Text) :
    p.advance (c :: s) = (p.step c).advance s := rfl

@[simp] theorem advance_append (p : Position) (s t : Text) :
    p.advance (s ++ t) = (p.advance s).advance t := List.foldl_append

@[simp] theorem step_offset (p : Position) (c : UInt8) : (p.step c).offset = p.offset + 1 := by
  unfold step
  split <;> rfl

/-- Offsets count every byte, whatever the rows do. -/
theorem advance_offset (p : Position) (s : Text) : (p.advance s).offset = p.offset + s.length := by
  induction s generalizing p with
  | nil => rfl
  | cons c s ih =>
      rw [advance_cons, ih, step_offset, List.length_cons]
      omega

end Position

/-- A stretch of source between two positions. -/
structure Span where
  start : Position
  stop : Position
deriving DecidableEq, Repr

end Scriptlet
