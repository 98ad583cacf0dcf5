import Scriptlet.Proofs.Source.Lines
import Scriptlet.Proofs.Token.Calls

/-!
# Rows of a source

The line table is made in one pass over the source, and the scanner counts rows in
a pass of its own. A newline at the very end begins no line of the table, while the
scanner still steps to a new row behind it. So a position of the scanner is on a row
of the table (`Position.Listed`), or it is at the end and its row is the first one
that is not in the table (`Position.Unlisted`); there is nothing else
(`TrueIn.listed_or_unlisted`).

The table is tied to the pieces of the source between its newlines by an induction
over the source (`Source.splitOn_of_laterLines`): a row shows its piece, less one
carriage return at the end (`Source.line_of_row`). `Scanner.session_rows` puts this
together for all tokens that a scanner is asked for.
-/

namespace Scriptlet

/-! ## Pieces of a text -/

namespace Text

theorem splitOn_first (c : UInt8) (s : Text) :
    (s.splitOn c)[0]? = some (s.takeWhile (· != c)) := by
  induction s with
  | nil => rfl
  | cons b s ih =>
      rw [List.splitOn_cons_eq_if_modifyHead]
      by_cases hb : b = c
      · simp [hb]
      · simp [hb, ih]

/-- A byte that is no separator belongs to the first piece and moves no later one. -/
theorem splitOn_later {c b : UInt8} (hb : b ≠ c) (s : Text) (i : Nat) :
    (List.splitOn c (b :: s))[i + 1]? = (s.splitOn c)[i + 1]? := by
  rw [List.splitOn_cons_eq_if_modifyHead, if_neg (by simpa using hb), List.getElem?_modifyHead_succ]

end Text

/-! ## The line table and the pieces -/

namespace Source

variable {source : Text}

theorem lt_of_mem_laterLines {n : Nat} {s : Text} :
    ∀ {begin : Nat}, begin ∈ laterLines n s → n < begin := by
  fun_induction laterLines n s with
  | case1 n => exact fun h => absurd h List.not_mem_nil
  | case2 n c s _ ih =>
      intro begin h
      rcases List.mem_cons.mp h with rfl | hlater
      · exact Nat.lt_succ_self n
      · exact Nat.lt_of_succ_lt (ih hlater)
  | case3 n c s _ ih => exact fun h => Nat.lt_of_succ_lt (ih h)

theorem laterLines_increasing (n : Nat) (s : Text) : (laterLines n s).Pairwise (· < ·) := by
  fun_induction laterLines n s with
  | case1 n => exact .nil
  | case2 n c s _ ih => exact List.pairwise_cons.mpr ⟨fun _ => lt_of_mem_laterLines, ih⟩
  | case3 n c s _ ih => exact ih

/-- Every newline but one at the very end begins a line. -/
theorem length_laterLines (n : Nat) (s : Text) :
    (laterLines n s).length = s.dropLast.count Byte.newline := by
  fun_induction laterLines n s with
  | case1 n => rfl
  | case2 n c s h ih =>
      obtain ⟨rfl, hmore⟩ : c = Byte.newline ∧ s ≠ [] := by simpa using h
      rw [List.length_cons, ih, List.dropLast_cons_of_ne_nil hmore, List.count_cons_self]
  | case3 n c s h ih =>
      rw [ih]
      by_cases hmore : s = []
      · rw [hmore]
        rfl
      · have hc : c ≠ Byte.newline := fun hc => h (by simp [hc, hmore])
        rw [List.dropLast_cons_of_ne_nil hmore, List.count_cons_of_ne hc]

/-- What stands at the beginning of a line, told from one byte further on. -/
theorem drop_begin {n begin : Nat} (h : n < begin) (c : UInt8) (s : Text) :
    (c :: s).drop (begin - n) = s.drop (begin - (n + 1)) := by
  rw [show begin - n = begin - (n + 1) + 1 by omega, List.drop_succ_cons]

/-- A line of the table behind the first one begins at the piece with its number. -/
theorem splitOn_of_laterLines {n : Nat} {s : Text} : ∀ {i begin : Nat},
    (laterLines n s)[i]? = some begin → (s.splitOn Byte.newline)[i + 1]?
      = some ((s.drop (begin - n)).takeWhile (· != Byte.newline)) := by
  fun_induction laterLines n s with
  | case1 n => exact fun h => nomatch h
  | case2 n c s h ih =>
      obtain ⟨rfl, -⟩ : c = Byte.newline ∧ s ≠ [] := by simpa using h
      intro i begin hbegin
      rw [List.splitOn_cons_eq_if_modifyHead, if_pos (beq_self_eq_true _), List.getElem?_cons_succ]
      cases i with
      | zero =>
          obtain rfl : n + 1 = begin := Option.some.inj hbegin
          rw [Text.splitOn_first, drop_begin (Nat.lt_succ_self n), Nat.sub_self, List.drop_zero]
      | succ i =>
          rw [List.getElem?_cons_succ] at hbegin
          have hlt := lt_of_mem_laterLines (List.mem_of_getElem? hbegin)
          rw [ih hbegin, drop_begin (Nat.lt_of_succ_lt hlt)]
  | case3 n c s h ih =>
      intro i begin hbegin
      have hlt := lt_of_mem_laterLines (List.mem_of_getElem? hbegin)
      -- a newline that begins no line is the last byte, and there is no later line then
      have hc : c ≠ Byte.newline := by
        rintro rfl
        obtain rfl : s = [] := by simpa using h
        cases hbegin
      rw [Text.splitOn_later hc, ih hbegin, drop_begin (Nat.lt_of_succ_lt hlt)]

theorem lineOffsets_of_ne_nil (h : source ≠ []) :
    lineOffsets source = 0 :: laterLines 0 source := by
  rw [lineOffsets, if_neg (by simpa using h)]

theorem lineOffsets_increasing (source : Text) : (lineOffsets source).Pairwise (· < ·) := by
  by_cases h : source = []
  · rw [h]
    exact .nil
  · rw [lineOffsets_of_ne_nil h]
    exact List.pairwise_cons.mpr ⟨fun _ => lt_of_mem_laterLines, laterLines_increasing 0 source⟩

/-- With nothing behind its last newline, a source has as many lines as newlines. -/
theorem length_lineOffsets_of_ended (h : source = [] ∨ source.getLast? = some Byte.newline) :
    (lineOffsets source).length = source.count Byte.newline := by
  rcases h with rfl | hlast
  · rfl
  · obtain ⟨body, rfl⟩ := List.getLast?_eq_some_iff.mp hlast
    rw [lineOffsets_of_ne_nil (List.append_ne_nil_of_right_ne_nil _ (List.cons_ne_nil _ _)),
      List.length_cons, length_laterLines, List.dropLast_concat, List.count_append,
      List.count_singleton_self]

theorem splitOn_of_lineOffsets {row begin : Nat} (h : (lineOffsets source)[row]? = some begin) :
    (source.splitOn Byte.newline)[row]?
      = some ((source.drop begin).takeWhile (· != Byte.newline)) := by
  have hne : source ≠ [] := by
    rintro rfl
    cases h
  rw [lineOffsets_of_ne_nil hne] at h
  cases row with
  | zero =>
      obtain rfl : 0 = begin := Option.some.inj h
      rw [Text.splitOn_first, List.drop_zero]
  | succ row =>
      rw [List.getElem?_cons_succ] at h
      exact splitOn_of_laterLines h

/-- One carriage return is taken off, and only from the end. -/
theorem dropCarriageReturn_cases (s : Text) : s = dropCarriageReturn s ++ [Byte.carriageReturn] ∨
    s = dropCarriageReturn s ∧ s.getLast? ≠ some Byte.carriageReturn := by
  unfold dropCarriageReturn
  split
  · rename_i hlast
    exact Or.inl (List.dropLast_append_getLast? _ hlast).symm
  · rename_i hlast
    exact Or.inr ⟨rfl, hlast⟩

/-- A row of the table shows its piece of the source. -/
theorem line_of_row {row : Nat} (h : row < (lineOffsets source).length) :
    ∃ piece, (source.splitOn Byte.newline)[row]? = some piece ∧
      line source row = dropCarriageReturn piece := by
  have hbegin := List.getElem?_eq_getElem h
  refine ⟨_, splitOn_of_lineOffsets hbegin, ?_⟩
  rw [line, hbegin]

theorem line_of_length_le {row : Nat} (h : (lineOffsets source).length ≤ row) :
    line source row = [] := by
  rw [line, List.getElem?_eq_none h]

end Source

/-! ## Positions and the table -/

namespace Position

variable {p : Position} {source : Text}

/-- The row of a position is in the table and begins where the position says. -/
def Listed (p : Position) (source : Text) : Prop :=
  ∃ _ : p.row < (Source.lineOffsets source).length,
    (Source.lineOffsets source)[p.row] = p.lineBegin

/-- A position behind the newline that ends the source, or in an empty one. Its row
is the first that is not in the table. -/
structure Unlisted (p : Position) (source : Text) : Prop where
  offset_eq : p.offset = source.length
  ended : source = [] ∨ source.getLast? = some Byte.newline
  col_eq : p.col = 0
  row_eq : p.row = (Source.lineOffsets source).length
  line_eq : Source.line source p.row = []

theorem TrueIn.listed (h : p.TrueIn source) (hlt : p.lineBegin < source.length) :
    p.Listed source :=
  List.getElem?_eq_some_iff.mp (h.lineOffsets_row hlt)

theorem TrueIn.unlisted (h : p.TrueIn source) (hge : source.length ≤ p.lineBegin) :
    p.Unlisted source := by
  -- the line begins at the end, so nothing of it is there
  have hbegin_le := h.begin_le
  have hoffset_le := h.offset_le
  have hoffset : p.offset = source.length := by omega
  have hbegin : p.lineBegin = source.length := by omega
  have hended : source = [] ∨ source.getLast? = some Byte.newline := by
    rcases h.begins with hzero | ⟨i, hi, hnewline⟩
    · exact Or.inl (List.eq_nil_of_length_eq_zero (hbegin.symm.trans hzero))
    · refine Or.inr ?_
      rw [List.getLast?_eq_getElem?, ← hbegin, hi, Nat.add_sub_cancel, hnewline]
  have hrow : p.row = (Source.lineOffsets source).length := by
    rw [h.row_eq, hoffset, List.take_length, Source.length_lineOffsets_of_ended hended]
  have hcol : p.col = 0 := by
    rw [h.col_eq, hoffset, hbegin, Nat.sub_self]
  exact ⟨hoffset, hended, hcol, hrow, Source.line_of_length_le (Nat.le_of_eq hrow.symm)⟩

theorem TrueIn.listed_or_unlisted (h : p.TrueIn source) : p.Listed source ∨ p.Unlisted source :=
  (Nat.lt_or_ge p.lineBegin source.length).imp h.listed h.unlisted

end Position

/-! ## Positions of the scanner -/

namespace Scanner

variable {s : Scanner} {source : Text}

theorem On.next (h : s.On source) : s.next.2.On source := on_behind (on_skipLayout h) _

theorem On.next_true (h : s.On source) :
    s.next.1.start.TrueIn source ∧ s.next.1.stop.TrueIn source :=
  ⟨(on_skipLayout h).position_true, h.next.position_true⟩

theorem On.steps_true (h : s.On source) (n : Nat) :
    ∀ t ∈ (s.steps n).1, t.start.TrueIn source ∧ t.stop.TrueIn source := by
  induction n generalizing s with
  | zero => exact List.forall_mem_nil _
  | succ n ih => exact List.forall_mem_cons.mpr ⟨h.next_true, ih h.next⟩

/-- Whatever a scanner is asked for, the positions in its tokens agree with the line
table, and the table with the pieces of the source between its newlines. -/
theorem session_rows (source : Text) (calls : List Call) :
    (∀ t ∈ ((ofSource source).session calls).1, ∀ p ∈ [t.start, t.stop],
      p.Listed source ∨ p.Unlisted source) ∧
    (Source.lineOffsets source).Pairwise (· < ·) ∧
    (source ≠ [] → (Source.lineOffsets source).head? = some 0) ∧
    ∀ row < (Source.lineOffsets source).length,
      ∃ piece, (source.splitOn Byte.newline)[row]? = some piece ∧
        (piece = Source.line source row ++ [Byte.carriageReturn] ∨
          piece = Source.line source row ∧ piece.getLast? ≠ some Byte.carriageReturn) := by
  refine ⟨fun t ht => ?_, Source.lineOffsets_increasing source, fun hne => ?_, fun row hrow => ?_⟩
  · obtain ⟨n, hn⟩ := (ofSource source).session_eq_steps calls
    rw [hn] at ht
    obtain ⟨hstart, hstop⟩ := (on_ofSource source).steps_true n t ht
    exact List.forall_mem_cons.mpr
      ⟨hstart.listed_or_unlisted, List.forall_mem_singleton.mpr hstop.listed_or_unlisted⟩
  · rw [Source.lineOffsets_of_ne_nil hne, List.head?_cons]
  · obtain ⟨piece, hpiece, hline⟩ := Source.line_of_row hrow
    rw [hline]
    exact ⟨piece, hpiece, Source.dropCarriageReturn_cases piece⟩

/-- A string literal that is not closed and runs over the newline at the end: it
starts on the last row of the table and stops behind it. -/
theorem session_rows_unclosed :
    let source := text "a\r\n\"b\n"
    let asked := (ofSource source).session [.one, .rest, .one]
    asked.1.map Token.kind = [.ident, .illegal, .eof, .eof] ∧
      Source.lineOffsets source = [0, 3] ∧
      (∃ t ∈ asked.1, t.kind = .illegal ∧ t.start.Listed source ∧ t.stop.Unlisted source) ∧
      ∃ piece, (source.splitOn Byte.newline)[0]? = some piece ∧
        piece = Source.line source 0 ++ [Byte.carriageReturn] := by
  intro source asked
  obtain ⟨hpositions, -, -, hlines⟩ := session_rows source [.one, .rest, .one]
  let t : Token := ⟨.illegal, text "b\n", ⟨1, 0, 3, 3⟩, ⟨2, 0, 6, 6⟩, 3, false, true⟩
  have ht : t ∈ asked.1 := by decide +kernel
  have hstart : t.start.Listed source :=
    (hpositions t ht t.start (by simp)).resolve_right fun h =>
      absurd h.offset_eq (by decide +kernel)
  have hstop : t.stop.Unlisted source :=
    (hpositions t ht t.stop (by simp)).resolve_left fun h => absurd h.1 (by decide +kernel)
  obtain ⟨piece, hpiece, hshown⟩ := hlines 0 (by decide +kernel)
  have hfirst : (source.splitOn Byte.newline)[0]? = some (text "a\r") := by decide +kernel
  obtain rfl : piece = text "a\r" := Option.some.inj (hpiece.symm.trans hfirst)
  exact ⟨by decide +kernel, by decide +kernel, ⟨t, ht, rfl, hstart, hstop⟩, _, hfirst,
    hshown.resolve_right fun h => h.2 (by decide +kernel)⟩

end Scanner

end Scriptlet
