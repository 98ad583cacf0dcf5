import Scriptlet.Proofs.Token.Runs

/-!
# Tokens further down

A scanner that starts further down in a source finds the same tokens and errors,
all of them moved by as many rows and bytes (`Scanner.all_shift`). So a source
on the rows below another one is scanned as if it stood alone, and moved down
(`scan_below`), unless the other one has lexical errors: an open string literal
would reach into it.
-/

namespace Scriptlet

/-- A number of rows down and of bytes on. -/
structure Shift where
  rows : Nat
  bytes : Nat
deriving DecidableEq

variable (d : Shift)

def Position.shift (p : Position) : Position :=
  ⟨p.row + d.rows, p.col, p.offset + d.bytes, p.lineBegin + d.bytes⟩

def Token.shift (t : Token) : Token :=
  { t with start := t.start.shift d, stop := t.stop.shift d }

def ScanError.shift (e : ScanError) : ScanError := { e with start := e.start.shift d }

def Scanner.shift (s : Scanner) : Scanner :=
  { s with position := s.position.shift d, errors := s.errors.map (ScanError.shift d) }

/-! ## Positions -/

namespace Position

theorem right_shift (p : Position) : (p.shift d).right = p.right.shift d := by
  simp only [right, shift, Nat.add_right_comm]

theorem step_shift (p : Position) (c : UInt8) : (p.shift d).step c = (p.step c).shift d := by
  unfold step
  split <;> simp only [shift, Nat.add_right_comm]

theorem advance_shift (p : Position) (s : Text) :
    (p.shift d).advance s = (p.advance s).shift d := by
  induction s generalizing p with
  | nil => rfl
  | cons c s ih => rw [advance_cons, advance_cons, step_shift, ih]

/-- Behind a newline stands the first column of a row further down. -/
theorem advance_newline (s : Text) : start.advance (s ++ [Byte.newline])
    = start.shift ⟨s.count Byte.newline + 1, s.length + 1⟩ := by
  have hall : s.drop start.offset = s ++ [] := by
    rw [List.append_nil]
    rfl
  have htrue := (trueIn_start s).advance hall
  have hoffset : (start.advance s).offset = s.length := by
    rw [advance_offset]
    exact Nat.zero_add _
  have hrow := htrue.row_eq
  rw [hoffset, List.take_length] at hrow
  rw [advance_append, advance_cons, advance_nil, step, if_pos rfl, hrow, hoffset]
  simp only [start, shift, Nat.zero_add]

end Position

/-! ## Scanners -/

namespace Scanner

variable (s : Scanner)

theorem skipLayout_shift : (s.shift d).skipLayout = s.skipLayout.shift d := by
  simp only [skipLayout, shift, Position.advance_shift]

theorem place_shift (l : Lexeme) : (s.shift d).place l = (s.place l).shift d := by
  simp only [place, shift, Token.shift, Position.advance_shift]

theorem behind_shift (l : Lexeme) : (s.shift d).behind l = (s.behind l).shift d := by
  cases hfault : l.fault? <;>
    simp [behind, shift, Position.advance_shift, ScanError.shift, hfault]

theorem all_shift : (s.shift d).all = (s.all.1.map (Token.shift d), s.all.2.shift d) := by
  induction s using all_induction with
  | hend s hnil =>
      have hnil' : (s.shift d).skipLayout.unread = [] := by
        rw [skipLayout_shift]
        exact hnil
      rw [all_of_end hnil, all_of_end hnil', skipLayout_shift]
      rfl
  | hmore s c r hcons ih =>
      have hcons' : (s.shift d).skipLayout.unread = c :: r := by
        rw [skipLayout_shift]
        exact hcons
      rw [all_of_more hcons, all_of_more hcons', skipLayout_shift, place_shift, behind_shift, ih]
      rfl

end Scanner

/-! ## A source below another one -/

namespace Token

variable {first : Text}

theorem scannerBehind_newline (hscan : (scan first).2 = []) (second : Text) :
    scannerBehind first Byte.newline second
      = (Scanner.ofSource second).shift ⟨first.count Byte.newline + 1, first.length + 1⟩ := by
  have hcount : (Scanner.ofSource first).all.2.errorCount = 0 := by
    rw [(Scanner.counted_ofSource first).all,
      show (Scanner.ofSource first).all.2.errors = [] from hscan]
    rfl
  rw [scannerBehind, Position.advance_newline, hcount,
    show (Scanner.ofSource first).all.2.errors = [] from hscan]
  rfl

theorem scan_below (hscan : (scan first).2 = []) (second : Text) :
    scan (first ++ Byte.newline :: second) =
      ((scan first).1.dropLast ++
          (scan second).1.map (shift ⟨first.count Byte.newline + 1, first.length + 1⟩),
        (scan second).2.map
        (ScanError.shift ⟨first.count Byte.newline + 1, first.length + 1⟩)) := by
  rw [scan_extend_closed second rfl fun _ => Shell.not_isOpenString hscan,
    scannerBehind_newline hscan, Scanner.all_shift]
  rfl

end Token

end Scriptlet
