import Scriptlet.Proofs.Token.Tiling
import Scriptlet.Source.Lines

/-!
# Lines and positions

The line table and the positions of the scanner count rows each in its own way.
They agree: at the row of a true position the table has the offset that its line
begins at (`TrueIn.lineOffsets_row`). So the text of a row shows, from the column
of one position to that of a later one, what stands between their offsets
(`TrueIn.line_between`). The line ending is cut off a row, and a carriage return in
front of it too, so the last byte in between must not be one.
-/

namespace Scriptlet

/-! ## The line table -/

/-- The line behind a newline that is not the last byte stands in the table, at
the number of newlines in front of that one. -/
theorem Source.laterLines_newline : ∀ {s : Text} {n i : Nat}, s[i]? = some Byte.newline →
    i + 1 < s.length → (laterLines n s)[(s.take i).count Byte.newline]? = some (n + i + 1)
  | c :: s, n, 0, h, hlt => by
      obtain rfl : c = Byte.newline := Option.some.inj h
      have hmore : s.isEmpty = false := by
        cases s with
        | nil => simp at hlt
        | cons => rfl
      simp [laterLines, hmore]
  | c :: s, n, i + 1, h, hlt => by
      have hlater : (laterLines (n + 1) s)[(s.take i).count Byte.newline]? = some (n + 1 + i + 1) :=
        laterLines_newline h (Nat.lt_of_succ_lt_succ hlt)
      rw [show n + (i + 1) + 1 = n + 1 + i + 1 by omega, ← hlater, List.take_succ_cons, laterLines]
      by_cases hc : c = Byte.newline
      · subst hc
        have hmore : s.isEmpty = false := by
          cases s with
          | nil => simp at hlt
          | cons => rfl
        simp [hmore]
      · simp [hc]

namespace Position

variable {p q : Position} {source : Text}

/-- The row is told by where the line begins. -/
theorem TrueIn.row_eq_begin (h : p.TrueIn source) :
    p.row = (source.take p.lineBegin).count Byte.newline := by
  have hsplit := List.take_append_drop p.lineBegin (source.take p.offset)
  rw [List.take_take, Nat.min_eq_left h.begin_le] at hsplit
  rw [h.row_eq, ← hsplit, List.count_append, List.count_eq_zero.mpr h.same_line, Nat.add_zero]

theorem TrueIn.lineOffsets_row (h : p.TrueIn source) (hlt : p.lineBegin < source.length) :
    (Source.lineOffsets source)[p.row]? = some p.lineBegin := by
  have hsome : source.isEmpty = false := by
    cases source with
    | nil => cases hlt
    | cons => rfl
  rw [Source.lineOffsets, hsome, h.row_eq_begin]
  rcases h.begins with hbegin | ⟨i, hbegin, hnewline⟩
  · rw [hbegin]
    rfl
  · rw [hbegin] at hlt ⊢
    have htake : source.take (i + 1) = source.take i ++ [Byte.newline] := by
      rw [List.take_add_one, hnewline, Option.toList_some]
    rw [htake, List.count_append]
    exact (Source.laterLines_newline hnewline hlt).trans (by rw [Nat.zero_add])

/-- Positions on one row have one line beginning. -/
theorem TrueIn.begin_eq (hp : p.TrueIn source) (hq : q.TrueIn source) (hrow : p.row = q.row) :
    p.lineBegin = q.lineBegin := by
  -- a line that begins later has one more newline in front of it
  have hle : ∀ {p q : Position}, p.TrueIn source → q.TrueIn source → p.row = q.row →
      q.lineBegin ≤ p.lineBegin := by
    intro p q hp hq hrow
    refine Nat.le_of_not_lt fun hlt => ?_
    obtain ⟨i, hi, hnewline⟩ : ∃ i, q.lineBegin = i + 1 ∧ source[i]? = some Byte.newline := by
      rcases hq.begins with hzero | hbehind
      · omega
      · exact hbehind
    have htake : source.take (i + 1) = source.take i ++ [Byte.newline] := by
      rw [List.take_add_one, hnewline, Option.toList_some]
    have hmono : (source.take p.lineBegin).count Byte.newline
        ≤ (source.take i).count Byte.newline :=
      (List.take_prefix_take_left (by omega)).sublist.count_le _
    rw [hp.row_eq_begin, hq.row_eq_begin, hi, htake, List.count_append] at hrow
    simp at hrow
    omega
  exact Nat.le_antisymm (hle hq hp hrow.symm) (hle hp hq hrow)

theorem TrueIn.col_lt (hp : p.TrueIn source) (hq : q.TrueIn source) (hrow : q.row = p.row)
    (hlt : p.offset < q.offset) : p.col < q.col := by
  have hbegin_le := hp.begin_le
  rw [hp.col_eq, hq.col_eq, hq.begin_eq hp hrow]
  omega

/-- The offset tells a position. -/
theorem TrueIn.ext (hp : p.TrueIn source) (hq : q.TrueIn source) (h : p.offset = q.offset) :
    p = q := by
  have hrow : p.row = q.row := by rw [hp.row_eq, hq.row_eq, h]
  have hbegin := hp.begin_eq hq hrow
  have hcol : p.col = q.col := by rw [hp.col_eq, hq.col_eq, h, hbegin]
  cases p
  cases q
  simp_all

/-- Without a newline in between, two positions are on one row. -/
theorem TrueIn.row_eq_of_between (hp : p.TrueIn source) (hq : q.TrueIn source)
    (hle : p.offset ≤ q.offset) (h : Byte.newline ∉ (source.take q.offset).drop p.offset) :
    p.row = q.row := by
  have hsplit := List.take_append_drop p.offset (source.take q.offset)
  rw [List.take_take, Nat.min_eq_left hle] at hsplit
  rw [hq.row_eq, ← hsplit, List.count_append, List.count_eq_zero.mpr h, hp.row_eq, Nat.add_zero]

end Position

/-! ## The text of a row -/

theorem Source.dropCarriageReturn_append {s : Text} (rest : Text)
    (h : s.getLast? ≠ some Byte.carriageReturn) :
    ∃ rest', dropCarriageReturn (s ++ rest) = s ++ rest' := by
  unfold dropCarriageReturn
  split
  · rename_i hlast
    cases rest with
    | nil =>
        rw [List.append_nil] at hlast
        exact absurd hlast h
    | cons c rest => exact ⟨_, List.dropLast_append_of_ne_nil (List.cons_ne_nil c rest)⟩
  · exact ⟨rest, rfl⟩

/-- The last byte of a stretch of source is the one in front of its end. -/
theorem Source.getLast?_between {source : Text} {n m : Nat} (hlt : n < m)
    (hle : m ≤ source.length) : ((source.take m).drop n).getLast? = source[m - 1]? := by
  rw [List.getLast?_eq_getElem?, List.getElem?_drop, List.length_drop, List.length_take,
    Nat.min_eq_left hle, List.getElem?_take_of_lt (by omega)]
  congr 1
  omega

namespace Position

variable {p q : Position} {source : Text}

/-- Up to a position, a row shows what stands there in the source. -/
theorem TrueIn.line_upTo (hq : q.TrueIn source) (hlt : q.lineBegin < q.offset)
    (hlast : source[q.offset - 1]? ≠ some Byte.carriageReturn) :
    ∃ rest, Source.line source q.row = (source.take q.offset).drop q.lineBegin ++ rest := by
  have hbegin : q.lineBegin < source.length := Nat.lt_of_lt_of_le hlt hq.offset_le
  have hsplit : source.drop q.lineBegin
      = (source.take q.offset).drop q.lineBegin ++ source.drop q.offset := by
    have hlength : q.lineBegin ≤ (source.take q.offset).length := by
      rw [List.length_take]
      have := hq.offset_le
      omega
    rw [← List.drop_append_of_le_length hlength, List.take_append_drop]
  have hinside : ∀ c ∈ (source.take q.offset).drop q.lineBegin, (c != Byte.newline) = true := by
    intro c hc
    rw [bne_iff_ne]
    rintro rfl
    exact hq.same_line hc
  rw [Source.line, hq.lineOffsets_row hbegin]
  show ∃ rest, Source.dropCarriageReturn _ = _
  rw [hsplit, List.takeWhile_append_of_pos hinside]
  refine Source.dropCarriageReturn_append _ ?_
  rw [Source.getLast?_between hlt hq.offset_le]
  exact hlast

/-- Between two positions on one row, the text of the row is that of the
source. -/
theorem TrueIn.line_between (hp : p.TrueIn source) (hq : q.TrueIn source) (hrow : q.row = p.row)
    (hlt : p.offset < q.offset) (hlast : source[q.offset - 1]? ≠ some Byte.carriageReturn) :
    q.col - p.col = ((source.take q.offset).drop p.offset).length ∧
      ((Source.line source p.row).drop p.col).take (q.col - p.col)
        = (source.take q.offset).drop p.offset := by
  have hbegin := hq.begin_eq hp hrow
  have hbegin_le := hp.begin_le
  have hcol : q.lineBegin + p.col = p.offset := by
    rw [hp.col_eq, hbegin]
    omega
  -- the stretch in question is the last part of the row up to there
  have hinner : ((source.take q.offset).drop q.lineBegin).drop p.col
      = (source.take q.offset).drop p.offset := by
    rw [List.drop_drop, hcol]
  have hlength : ((source.take q.offset).drop p.offset).length = q.col - p.col := by
    rw [List.length_drop, List.length_take, Nat.min_eq_left hq.offset_le, hq.col_eq, hp.col_eq,
      hbegin]
    omega
  obtain ⟨rest, hline⟩ := hq.line_upTo (by omega) hlast
  refine ⟨hlength.symm, ?_⟩
  rw [← hrow, hline, ← hlength, List.drop_append_of_le_length, hinner, List.take_left]
  rw [List.length_drop, List.length_take, Nat.min_eq_left hq.offset_le]
  omega

end Position

end Scriptlet
