import Scriptlet.Proofs.Script.Diagnostics

/-!
# Carets and the byte above them

A shown problem ends with two rows: the line it is in behind a gutter with the
number of the line, and carets behind a gutter of its own. The columns of these
rows are read off the shown text (`caretColumn`, `byteColumn`), the latter with
nothing but the source and an offset at hand.

The gutter of the line grows with its number from the fourth digit on and that of
the carets does not. So the first caret stands under the byte that is blamed in the
first 999 lines, and in a later one too far to the left by the digits beyond three
(`Script.caretColumn_of_problem`).
-/

namespace Scriptlet

/-! ## Rows of a text -/

namespace Text

/-- What stands behind the last newline. -/
def lastRow (s : Text) : Text := (s.splitOn Byte.newline).getLast?.getD []

/-- What stands between the last two newlines. -/
def rowAbove (s : Text) : Text := (s.splitOn Byte.newline).dropLast.getLast?.getD []

variable {row last : Text}

theorem splitOn_rows (above : Text) (hrow : Byte.newline ∉ row) (hlast : Byte.newline ∉ last) :
    (above ++ Byte.newline :: (row ++ Byte.newline :: last)).splitOn Byte.newline
      = above.splitOn Byte.newline ++ [row] ++ [last] := by
  rw [List.splitOn_append_cons_self, List.splitOn_append_cons_self_of_not_mem hrow,
    List.splitOn_eq_singleton hlast, List.append_assoc]
  rfl

theorem lastRow_rows (above : Text) (hrow : Byte.newline ∉ row) (hlast : Byte.newline ∉ last) :
    lastRow (above ++ Byte.newline :: (row ++ Byte.newline :: last)) = last := by
  rw [lastRow, splitOn_rows above hrow hlast, List.getLast?_concat, Option.getD_some]

theorem rowAbove_rows (above : Text) (hrow : Byte.newline ∉ row) (hlast : Byte.newline ∉ last) :
    rowAbove (above ++ Byte.newline :: (row ++ Byte.newline :: last)) = row := by
  rw [rowAbove, splitOn_rows above hrow hlast, List.dropLast_concat, List.getLast?_concat,
    Option.getD_some]

theorem newline_not_mem_blanks (n : Nat) : Byte.newline ∉ blanks n := by
  intro h
  cases List.eq_of_mem_replicate h

theorem newline_not_mem_ofNat (n : Nat) : Byte.newline ∉ ofNat n := by
  intro h
  obtain ⟨c, hc, hbyte⟩ := List.mem_map.mp h
  have hdigit := Nat.isDigit_of_mem_toDigits (by decide) (by decide) hc
  obtain ⟨hlow, hhigh⟩ := Char.isDigit_iff_toNat.mp hdigit
  have hvalue := congrArg UInt8.toNat hbyte
  rw [UInt8.toNat_ofNat_of_lt' (Nat.lt_of_le_of_lt hhigh (by decide))] at hvalue
  exact absurd (hvalue ▸ hlow) (by decide)

/-- Numbers of up to three digits are those below a thousand. -/
theorem length_ofNat_le_three (n : Nat) : (ofNat n).length ≤ 3 ↔ n < 1000 := by
  rw [ofNat, List.length_map]
  exact Nat.length_toDigits_le_iff (by decide) (by decide)

theorem length_padLeft (width : Nat) (s : Text) :
    (padLeft width s).length = max width s.length := by
  rw [padLeft, blanks, List.length_append, List.length_replicate]
  omega

end Text

/-! ## Rows and columns of a source -/

namespace Source

/-- The row that an offset is in. -/
def rowAt (source : Text) (offset : Nat) : Nat := (source.take offset).count Byte.newline

/-- The bytes between an offset and the newline in front of it. -/
def columnAt (source : Text) (offset : Nat) : Nat :=
  ((source.take offset).reverse.takeWhile (· != Byte.newline)).length

theorem newline_not_mem_line (source : Text) (row : Nat) : Byte.newline ∉ line source row := by
  rw [line]
  split
  · exact List.not_mem_nil
  · rename_i first _
    have hrow : Byte.newline ∉ (source.drop first).takeWhile (· != Byte.newline) := by
      intro h
      have hne := List.mem_takeWhile_imp h
      simp at hne
    rw [dropCarriageReturn]
    split
    · exact fun h => hrow (List.mem_of_mem_dropLast h)
    · exact hrow

end Source

theorem Position.TrueIn.columnAt_eq {p : Position} {source : Text} (h : p.TrueIn source) :
    Source.columnAt source p.offset = p.col := by
  have hbegin := h.begin_le
  have hinside : ∀ c ∈ ((source.take p.offset).drop p.lineBegin).reverse,
      (c != Byte.newline) = true := by
    intro c hc
    rw [bne_iff_ne]
    rintro rfl
    exact h.same_line (List.mem_reverse.mp hc)
  have hsplit : (source.take p.offset).reverse
      = ((source.take p.offset).drop p.lineBegin).reverse ++ (source.take p.lineBegin).reverse := by
    rw [← List.reverse_append, ← Nat.min_eq_left hbegin, ← List.take_take, Nat.min_eq_left hbegin,
      List.take_append_drop]
  -- the line begins at the start of the source, or behind a newline
  have houtside : (source.take p.lineBegin).reverse.takeWhile (· != Byte.newline) = [] := by
    rcases h.begins with hzero | ⟨n, hn, hnewline⟩
    · rw [hzero]
      rfl
    · rw [hn, List.take_add_one, hnewline, Option.toList_some, List.reverse_concat]
      rfl
  rw [Source.columnAt, hsplit, List.takeWhile_append_of_pos hinside, houtside, List.append_nil,
    List.length_reverse, List.length_drop, List.length_take, Nat.min_eq_left h.offset_le, h.col_eq]

/-! ## Columns of a shown problem -/

/-- The column of the first caret in the last row. -/
def caretColumn (shown : Text) : Nat := (Text.lastRow shown).idxOf 0x5e

/-- The column, in the row above the last, of the byte at an offset of the source.
That row ends with the line that the byte is in. -/
def byteColumn (source shown : Text) (offset : Nat) : Nat :=
  (Text.rowAbove shown).length - (Source.line source (Source.rowAt source offset)).length
    + Source.columnAt source offset

namespace Problem

/-- The row with the line. -/
def lineRow (source : Text) (row : Nat) : Text :=
  Text.padLeft 3 (Text.ofNat (row + 1)) ++ text " | " ++ Source.line source row

/-- The row with the carets. -/
def caretRow (column width : Nat) : Text :=
  text "    | " ++ Text.blanks column ++ List.replicate width 0x5e

theorem newline_not_mem_lineRow (source : Text) (row : Nat) :
    Byte.newline ∉ lineRow source row := by
  rw [lineRow, Text.padLeft, List.mem_append, List.mem_append, List.mem_append, not_or, not_or,
    not_or]
  exact ⟨⟨⟨Text.newline_not_mem_blanks _, Text.newline_not_mem_ofNat _⟩, by decide⟩,
    Source.newline_not_mem_line _ _⟩

theorem newline_not_mem_caretRow (column width : Nat) : Byte.newline ∉ caretRow column width := by
  rw [caretRow, List.mem_append, List.mem_append, not_or, not_or]
  refine ⟨⟨by decide, Text.newline_not_mem_blanks _⟩, fun h => ?_⟩
  cases List.eq_of_mem_replicate h

theorem idxOf_caretRow (column : Nat) {width : Nat} (h : 1 ≤ width) :
    (caretRow column width).idxOf 0x5e = 6 + column := by
  have hbefore : 0x5e ∉ text "    | " ++ Text.blanks column := by
    rw [List.mem_append, not_or]
    refine ⟨by decide, fun hmem => ?_⟩
    cases List.eq_of_mem_replicate hmem
  obtain ⟨n, rfl⟩ := Nat.exists_eq_add_of_le' h
  rw [caretRow, List.idxOf_append_of_notMem hbefore, List.replicate_succ, List.idxOf_cons_self,
    List.length_append, Text.blanks, List.length_replicate]
  rfl

theorem length_lineRow (source : Text) (row : Nat) :
    (lineRow source row).length
      = max 3 (Text.ofNat (row + 1)).length + 3 + (Source.line source row).length := by
  rw [lineRow, List.length_append, List.length_append, Text.length_padLeft]
  rfl

variable {p : Problem} {source : Text} {s : Span}

theorem render_rows (hs : p.span? = some s) : p.render (some source) =
    text "error: " ++ p.explanation ++ Byte.newline ::
      (lineRow source s.start.row ++ Byte.newline :: caretRow s.start.col (carets s)) := by
  have hnewline : text "\n" = [Byte.newline] := by decide
  rw [(shownAt_of_span? hs).render_eq, lineRow, caretRow, hnewline]
  simp only [List.append_assoc, List.cons_append, List.nil_append]

theorem lastRow_render (hs : p.span? = some s) :
    Text.lastRow (p.render (some source)) = caretRow s.start.col (carets s) := by
  rw [render_rows hs]
  exact Text.lastRow_rows _ (newline_not_mem_lineRow _ _) (newline_not_mem_caretRow _ _)

theorem rowAbove_render (hs : p.span? = some s) :
    Text.rowAbove (p.render (some source)) = lineRow source s.start.row := by
  rw [render_rows hs]
  exact Text.rowAbove_rows _ (newline_not_mem_lineRow _ _) (newline_not_mem_caretRow _ _)

theorem caretColumn_render (hs : p.span? = some s) :
    caretColumn (p.render (some source)) = 6 + s.start.col := by
  rw [caretColumn, lastRow_render hs, idxOf_caretRow _ (one_le_carets s)]

theorem caret_mem_lastRow (hs : p.span? = some s) :
    0x5e ∈ Text.lastRow (p.render (some source)) := by
  have hpos := one_le_carets s
  rw [lastRow_render hs, caretRow]
  exact List.mem_append_right _ (List.mem_replicate.mpr ⟨by omega, rfl⟩)

theorem byteColumn_render (hs : p.span? = some s) (htrue : s.start.TrueIn source) :
    byteColumn source (p.render (some source)) s.start.offset
      = max 3 (Text.ofNat (s.start.row + 1)).length + 3 + s.start.col := by
  have hrow : Source.rowAt source s.start.offset = s.start.row := htrue.row_eq.symm
  rw [byteColumn, rowAbove_render hs, length_lineRow, hrow, htrue.columnAt_eq,
    Nat.add_sub_cancel_right]

/-- A byte of the line is found behind the gutter. -/
theorem getElem?_rowAbove (hs : p.span? = some s) (htrue : s.start.TrueIn source) :
    (Text.rowAbove (p.render (some source)))[byteColumn source (p.render (some source))
      s.start.offset]? = (Source.line source s.start.row)[s.start.col]? := by
  have hgutter : (Text.padLeft 3 (Text.ofNat (s.start.row + 1)) ++ text " | ").length
      = max 3 (Text.ofNat (s.start.row + 1)).length + 3 := by
    rw [List.length_append, Text.length_padLeft]
    rfl
  rw [byteColumn_render hs htrue, rowAbove_render hs, lineRow, ← hgutter,
    List.getElem?_append_right (Nat.le_add_right _ _), Nat.add_sub_cancel_left]

end Problem

/-! ## Where the problems of a source stand -/

/-- A place in a source at a byte that is not layout. -/
def Position.OnByte (p : Position) (source : Text) : Prop :=
  p.TrueIn source ∧ ∃ b, source[p.offset]? = some b ∧ Byte.isLayout b = false

theorem Position.OnByte.line_eq {p : Position} {source : Text} (h : p.OnByte source) :
    (Source.line source p.row)[p.col]? = source[p.offset]? := by
  obtain ⟨htrue, b, hb, hlayout⟩ := h
  rw [htrue.line_byte hb hlayout, hb]

/-- What the parser blames at the end of input stands behind all bytes. -/
theorem parse_end_offset (source : Text) : ∀ e ∈ (parse (Token.scan source).1).errors,
    e.got.kind = .eof → e.got.start.offset = source.length := by
  have htiles := Scanner.tiles_all (Scanner.on_ofSource source)
  -- two end tokens in wrong places serve as the strays
  have hstray : ∀ n, ¬ ((Token.endOfInput ⟨0, 0, source.length + (n + 1), 0⟩).kind = .eof →
      (Token.endOfInput ⟨0, 0, source.length + (n + 1), 0⟩).start.offset = source.length) := by
    intro n h
    have hoffset : source.length + (n + 1) = source.length := h rfl
    omega
  refine (parse_tokens (fun heq => ?_) (hstray 0) (hstray 1) (fun t _ hs => ⟨?_, fun hk => ?_⟩)
    (Token.endsOnce_scan source) htiles.end_offset).2
  · have hoffset : source.length + 1 = source.length + 2 :=
      congrArg (fun t => t.start.offset) heq
    omega
  · rintro ⟨⟩
  · have hnumber := Token.isNumber_of_isSignedNumber hs
    have hkind : t.kind = .eof := hk
    simp [Token.isNumber, hkind] at hnumber

theorem Token.Genuine.onByte {t : Token} {source : Text} (h : t.Genuine source)
    (hk : t.kind ≠ .eof) : t.start.OnByte source := by
  have hlegible := h.legible hk
  obtain ⟨c, s, hwritten, hc⟩ := hlegible.first
  refine ⟨h.placed.start_true, c, ?_, hc⟩
  have hbytes : (source.take t.stop.offset).drop t.start.offset = c :: s :=
    (h.placed.bytesIn_eq_written hlegible).trans hwritten
  have hhead := congrArg List.head? hbytes
  rwa [List.head?_drop, List.getElem?_take_of_lt (h.placed.nonempty hk), List.head?_cons] at hhead

namespace Script

variable {source : Text} {ps : List Problem} {p : Problem} {s : Span}

theorem onByte_of_problem (h : (program source).2 = some (.problems ps)) (hp : p ∈ ps)
    (hs : p.span? = some s) (hinside : s.start.offset < source.length) :
    s.start.OnByte source := by
  rcases cases_of_program h hp with ⟨e, he, rfl⟩ | ⟨hscan, e, he, rfl⟩
  · obtain rfl := Option.some.inj hs
    exact ScanError.sits_scan e he
  · obtain rfl := Option.some.inj hs
    obtain ⟨hstart, -⟩ := (Scanner.parse_row (Scanner.on_ofSource source)).2 e he
    have hgot : e.got.start.OnByte source := by
      refine ((parse_genuine hscan).2 e he).onByte fun hk => ?_
      have hend := parse_end_offset source e he hk
      rw [← hstart] at hend
      exact absurd hend (Nat.ne_of_lt hinside)
    rwa [← hstart] at hgot

/-- The row above the carets ends with the line of the byte that is blamed and shows
that byte. The first caret stands to the left of it by the digits beyond three of
the line's number, so it is under it in the first 999 lines only. -/
theorem caretColumn_of_problem (h : (program source).2 = some (.problems ps)) (hp : p ∈ ps)
    (hs : p.span? = some s) (hinside : s.start.offset < source.length) :
    Source.line source (Source.rowAt source s.start.offset)
        <:+ Text.rowAbove (p.render (some source)) ∧
      (Text.rowAbove (p.render (some source)))[byteColumn source (p.render (some source))
        s.start.offset]? = source[s.start.offset]? ∧
      0x5e ∈ Text.lastRow (p.render (some source)) ∧
      byteColumn source (p.render (some source)) s.start.offset
        = caretColumn (p.render (some source))
          + ((Text.ofNat (Source.rowAt source s.start.offset + 1)).length - 3) ∧
      (caretColumn (p.render (some source))
          = byteColumn source (p.render (some source)) s.start.offset ↔
        Source.rowAt source s.start.offset + 1 < 1000) := by
  have hbyte := onByte_of_problem h hp hs hinside
  have hrow : Source.rowAt source s.start.offset = s.start.row := hbyte.1.row_eq.symm
  rw [Problem.getElem?_rowAbove hs hbyte.1, Problem.byteColumn_render hs hbyte.1,
    Problem.caretColumn_render hs, hrow, ← Text.length_ofNat_le_three]
  refine ⟨?_, hbyte.line_eq, Problem.caret_mem_lastRow hs, by omega, by omega⟩
  rw [Problem.rowAbove_render hs]
  exact List.suffix_append _ _

/-- An equals sign behind a tab and a word, in a line that ends with a carriage
return. -/
theorem caretColumn_of_problem_second :
    let source := text "1;\r\n\tlet = 5;\r\n"
    let p := Problem.grammatical
      (.blame ⟨.assign, text "=", ⟨1, 5, 9, 4⟩, ⟨1, 6, 10, 4⟩, 1, false, false⟩
        (.expected (text "IDENT")))
    (program source).2 = some (.problems [p]) ∧
      (Text.rowAbove (p.render (some source)))[byteColumn source (p.render (some source)) 9]?
        = some Byte.equals ∧
      caretColumn (p.render (some source)) = byteColumn source (p.render (some source)) 9 := by
  intro source p
  obtain ⟨hscan, herrors⟩ : (Token.scan source).2 = [] ∧
      (parse (Token.scan source).1).errors
        = [.blame ⟨.assign, text "=", ⟨1, 5, 9, 4⟩, ⟨1, 6, 10, 4⟩, 1, false, false⟩
          (.expected (text "IDENT"))] := by
    decide +kernel
  have hprogram : (program source).2 = some (.problems [p]) := by
    rw [failure_program hscan, herrors]
    rfl
  obtain ⟨-, hbyte, -, -, hunder⟩ :=
    caretColumn_of_problem hprogram List.mem_cons_self rfl (by decide)
  exact ⟨hprogram, hbyte, hunder.mpr (by decide)⟩

/-- A parenthesis alone in line 1000, with the caret one column in front of it. -/
theorem caretColumn_line_1000 :
    let source := List.replicate 999 Byte.newline ++ text ")"
    let p := Problem.grammatical
      (.blame ⟨.closeParen, text ")", ⟨999, 0, 999, 999⟩, ⟨999, 1, 1000, 999⟩, 1, false, false⟩
        (.expected (text "expression")))
    (program source).2 = some (.problems [p]) ∧
      p.render (some source)
        = text "error: expected expression, got ')'\n1000 | )\n    | ^" ∧
      caretColumn (p.render (some source)) = 6 ∧
      byteColumn source (p.render (some source)) 999 = 7 := by
  intro source p
  obtain ⟨hscan, herrors, hcolumns⟩ : (Token.scan source).2 = [] ∧
      (parse (Token.scan source).1).errors
        = [.blame ⟨.closeParen, text ")", ⟨999, 0, 999, 999⟩, ⟨999, 1, 1000, 999⟩, 1, false, false⟩
          (.expected (text "expression"))] ∧
      p.render (some source)
        = text "error: expected expression, got ')'\n1000 | )\n    | ^" ∧
      caretColumn (p.render (some source)) = 6 ∧
      byteColumn source (p.render (some source)) 999 = 7 := by
    decide +kernel
  refine ⟨?_, hcolumns⟩
  rw [failure_program hscan, herrors]
  rfl

end Script

end Scriptlet
