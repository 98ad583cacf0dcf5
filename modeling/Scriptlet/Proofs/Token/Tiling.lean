import Scriptlet.Proofs.Token.Lexeme
import Scriptlet.Token.Scanner

/-!
# Tokens tile their source

The tokens of a source stand one behind the other with nothing but layout
between them, up to one end token behind the last byte, and all their
positions are true.

A position is true (`Position.TrueIn`) when its row counts the newlines before
its offset and its line begins right behind the last of them. `TrueIn.step`
carries this over one byte and `TrueIn.advance` over a run of bytes. A scanner
stands on its source (`Scanner.On`) when its position is true and the unread
bytes are the rest of the source; `on_skipLayout` and `on_behind` show that
the two halves of `Scanner.next` keep this, and `tiles_take` follows a whole
run of the scanner.
-/

namespace Scriptlet

/-! ## True positions -/

namespace Position

structure TrueIn (p : Position) (source : Text) : Prop where
  offset_le : p.offset ≤ source.length
  row_eq : p.row = (source.take p.offset).count Byte.newline
  begin_le : p.lineBegin ≤ p.offset
  col_eq : p.col = p.offset - p.lineBegin
  begins : p.lineBegin = 0 ∨ ∃ n, p.lineBegin = n + 1 ∧ source[n]? = some Byte.newline
  same_line : Byte.newline ∉ (source.take p.offset).drop p.lineBegin

theorem trueIn_start (source : Text) : start.TrueIn source :=
  ⟨Nat.zero_le _, rfl, Nat.le_refl _, rfl, Or.inl rfl, by simp [start]⟩

variable {p : Position} {source : Text}

theorem TrueIn.step (h : p.TrueIn source) {c : UInt8} {rest : Text}
    (hrest : source.drop p.offset = c :: rest) : (p.step c).TrueIn source := by
  have hc : source[p.offset]? = some c := by
    rw [← List.head?_drop, hrest, List.head?_cons]
  have hlt : p.offset < source.length := (List.getElem?_eq_some_iff.mp hc).1
  have htake : source.take (p.offset + 1) = source.take p.offset ++ [c] := by
    rw [List.take_add_one, hc, Option.toList_some]
  unfold Position.step
  split
  · rename_i hnewline
    subst hnewline
    refine ⟨hlt, ?_, Nat.le_refl _, by simp, Or.inr ⟨p.offset, rfl, hc⟩, by simp⟩
    show p.row + 1 = _
    rw [htake, List.count_append, ← h.row_eq]
    rfl
  · rename_i hnewline
    have hbegin : p.lineBegin ≤ (source.take p.offset).length := by
      rw [List.length_take]
      exact Nat.le_min.mpr ⟨h.begin_le, Nat.le_trans h.begin_le h.offset_le⟩
    refine ⟨hlt, ?_, Nat.le_succ_of_le h.begin_le, ?_, h.begins, ?_⟩
    · show p.row = _
      rw [htake, List.count_append, ← h.row_eq, List.count_singleton]
      simp [hnewline]
    · show p.col + 1 = p.offset + 1 - p.lineBegin
      rw [h.col_eq, Nat.succ_sub h.begin_le]
    · show Byte.newline ∉ (source.take (p.offset + 1)).drop p.lineBegin
      rw [htake, List.drop_append_of_le_length hbegin, List.mem_append, List.mem_singleton]
      rintro (hmem | hmem)
      · exact h.same_line hmem
      · exact hnewline hmem.symm

/-- Reading on in the source keeps a position true. -/
theorem TrueIn.advance (h : p.TrueIn source) {bytes rest : Text}
    (hrest : source.drop p.offset = bytes ++ rest) : (p.advance bytes).TrueIn source := by
  induction bytes generalizing p with
  | nil => exact h
  | cons c bytes ih =>
      rw [advance_cons]
      refine ih (h.step hrest) ?_
      rw [step_offset, ← List.drop_drop, hrest]
      rfl

end Position

/-! ## Tilings -/

namespace Token

/-- The stretch of source from the start of a token to its end. -/
def bytesIn (t : Token) (source : Text) : Text := (source.take t.stop.offset).drop t.start.offset

/-- What holds of each token by itself. -/
structure Placed (t : Token) (source : Text) : Prop where
  start_true : t.start.TrueIn source
  stop_true : t.stop.TrueIn source
  start_le : t.start.offset ≤ t.stop.offset
  nonempty : t.kind ≠ .eof → t.start.offset < t.stop.offset
  length_eq : t.length = t.stop.offset - t.start.offset
  stands : Lexeme.StandsFor t.kind t.lexeme (t.bytesIn source)

/-- One end token, behind all others. -/
structure EndsOnce (tokens : List Token) : Prop where
  marked : ∀ t ∈ tokens, t.isEof = true ↔ t.kind = .eof
  ended : ∃ body last, tokens = body ++ [last] ∧ last.kind = .eof ∧ ∀ t ∈ body, t.kind ≠ .eof

/-- The tokens account for the source from offset `n` on. -/
structure Tiles (source : Text) (n : Nat) (tokens : List Token) : Prop where
  endsOnce : EndsOnce tokens
  end_offset : ∀ t ∈ tokens, t.kind = .eof → t.start.offset = source.length
  placed : ∀ t ∈ tokens, t.Placed source
  beyond : ∀ t ∈ tokens, n ≤ t.start.offset
  ordered : tokens.Pairwise fun t u => t.stop.offset ≤ u.start.offset
  covered : ∀ i c, n ≤ i → source[i]? = some c →
    (∃ t ∈ tokens, t.start.offset ≤ i ∧ i < t.stop.offset) ∨ Byte.isLayout c = true

/-- Nothing but layout between two offsets. -/
def Blank (source : Text) (n m : Nat) : Prop :=
  ∀ i c, n ≤ i → i < m → source[i]? = some c → Byte.isLayout c = true

variable {t : Token} {ts : List Token} {source : Text} {n : Nat}

/-- The end token is the one that is left out where the end is not wanted. -/
theorem EndsOnce.filter_eq (h : EndsOnce ts) : ts.filter (!·.isEof) = ts.dropLast := by
  obtain ⟨body, last, rfl, hlast, hbody⟩ := h.ended
  have hmark : last.isEof = true := (h.marked last (by simp)).mpr hlast
  have hinner : ∀ t ∈ body, (!t.isEof) = true := by
    intro t ht
    have hmark := h.marked t (List.mem_append_left _ ht)
    simpa [hbody t ht] using hmark
  rw [List.filter_append, List.filter_eq_self.mpr hinner, List.dropLast_concat]
  simp [hmark]

theorem tiles_end (ht : t.Placed source) (hk : t.kind = .eof) (hm : t.isEof = true)
    (hn : n ≤ t.start.offset) (hend : t.start.offset = source.length)
    (hblank : Blank source n t.start.offset) : Tiles source n [t] := by
  refine ⟨⟨by simp [hm, hk], [], t, rfl, hk, by simp⟩, by simp [hend], by simp [ht], by simp [hn],
    by simp, ?_⟩
  intro i c hi hc
  have hlt := (List.getElem?_eq_some_iff.mp hc).1
  exact Or.inr (hblank i c hi (hend ▸ hlt) hc)

theorem tiles_cons (ht : t.Placed source) (hk : t.kind ≠ .eof) (hm : t.isEof = false)
    (hn : n ≤ t.start.offset) (hblank : Blank source n t.start.offset)
    (h : Tiles source t.stop.offset ts) : Tiles source n (t :: ts) := by
  obtain ⟨body, last, hsplit, hlast, hbody⟩ := h.endsOnce.ended
  constructor
  · refine ⟨?_, t :: body, last, by rw [hsplit, List.cons_append], hlast, ?_⟩
    · rw [List.forall_mem_cons]
      exact ⟨by simp [hm, hk], h.endsOnce.marked⟩
    · rw [List.forall_mem_cons]
      exact ⟨hk, hbody⟩
  · rw [List.forall_mem_cons]
    exact ⟨fun hk' => absurd hk' hk, h.end_offset⟩
  · rw [List.forall_mem_cons]
    exact ⟨ht, h.placed⟩
  · rw [List.forall_mem_cons]
    have hle := Nat.le_trans hn ht.start_le
    exact ⟨hn, fun u hu => Nat.le_trans hle (h.beyond u hu)⟩
  · exact List.pairwise_cons.mpr ⟨h.beyond, h.ordered⟩
  · intro i c hi hc
    rcases Nat.lt_or_ge i t.start.offset with hlt | hge
    · exact Or.inr (hblank i c hi hlt hc)
    · rcases Nat.lt_or_ge i t.stop.offset with hlt' | hge'
      · exact Or.inl ⟨t, List.mem_cons_self, hge, hlt'⟩
      · rcases h.covered i c hge' hc with ⟨u, hu, hspan⟩ | hlayout
        · exact Or.inl ⟨u, List.mem_cons_of_mem t hu, hspan⟩
        · exact Or.inr hlayout

end Token

/-! ## The scanner on its source -/

namespace Scanner

structure On (s : Scanner) (source : Text) : Prop where
  position_true : s.position.TrueIn source
  unread_eq : s.unread = source.drop s.position.offset

variable {s : Scanner} {source : Text}

/-- A scanner stands on the source when it stands behind bytes that another one
has in front of it. -/
theorem On.advance (h : s.On source) {u : Scanner} {bytes : Text}
    (hsplit : s.unread = bytes ++ u.unread) (hposition : u.position = s.position.advance bytes) :
    u.On source := by
  have hrest : source.drop s.position.offset = bytes ++ u.unread := by
    rw [← h.unread_eq, hsplit]
  refine ⟨hposition ▸ h.position_true.advance hrest, ?_⟩
  rw [hposition, Position.advance_offset, ← List.drop_drop, hrest, List.drop_left]

theorem on_skipLayout (h : s.On source) : s.skipLayout.On source :=
  h.advance List.takeWhile_append_dropWhile.symm rfl

theorem skipLayout_offset (s : Scanner) : s.skipLayout.position.offset
    = s.position.offset + (s.unread.takeWhile Byte.isLayout).length :=
  Position.advance_offset _ _

/-- What the scanner skips is layout. -/
theorem blank_skipLayout (h : s.On source) :
    Token.Blank source s.position.offset s.skipLayout.position.offset := by
  intro i c hi hlt hc
  rw [skipLayout_offset] at hlt
  obtain ⟨j, rfl⟩ := Nat.exists_eq_add_of_le hi
  have hj : j < (s.unread.takeWhile Byte.isLayout).length := by omega
  have hget : (s.unread.takeWhile Byte.isLayout)[j]? = some c := by
    calc (s.unread.takeWhile Byte.isLayout)[j]?
        = (s.unread.takeWhile Byte.isLayout ++ s.unread.dropWhile Byte.isLayout)[j]? :=
          (List.getElem?_append_left hj).symm
      _ = some c := by
          rw [List.takeWhile_append_dropWhile, h.unread_eq, List.getElem?_drop, hc]
  exact List.all_eq_true.mp List.all_takeWhile c (List.mem_of_getElem? hget)

theorem on_behind (h : s.On source) (l : Lexeme) : (s.behind l).On source :=
  h.advance (List.take_append_drop l.width s.unread).symm rfl

/-- The offset behind a lexeme of the unread bytes. -/
theorem place_stop (s : Scanner) {l : Lexeme} (hw : l.width ≤ s.unread.length) :
    (s.place l).stop.offset = s.position.offset + l.width := by
  show (s.position.advance _).offset = _
  rw [Position.advance_offset, List.length_take, Nat.min_eq_left hw]

theorem place_bytesIn (h : s.On source) {l : Lexeme} (hw : l.width ≤ s.unread.length) :
    (s.place l).bytesIn source = s.unread.take l.width := by
  rw [Token.bytesIn, place_stop s hw, h.unread_eq]
  show (source.take (s.position.offset + l.width)).drop s.position.offset = _
  rw [List.drop_take, Nat.add_sub_cancel_left]

theorem placed_place (h : s.On source) {l : Lexeme} (hw : l.width ≤ s.unread.length)
    (hpos : l.kind ≠ .eof → 0 < l.width)
    (hstands : Lexeme.StandsFor l.kind l.content (s.unread.take l.width)) :
    (s.place l).Placed source := by
  have hstop := place_stop s hw
  have hstart : (s.place l).start.offset = s.position.offset := rfl
  refine ⟨h.position_true, (on_behind h l).position_true, by omega, fun hk => ?_, ?_, ?_⟩
  · have := hpos hk
    omega
  · show l.width = _
    omega
  · rw [place_bytesIn h hw]
    exact hstands

/-! ## Steps and runs of the scanner -/

/-- At the end of the source the scanner gives the end token and stays. -/
theorem next_of_nil (hnil : s.skipLayout.unread = []) :
    s.next = (s.skipLayout.place (.plain .eof []), s.skipLayout.behind (.plain .eof [])) := by
  rw [next, hnil, Lexeme.read]

/-- Anywhere else it takes a lexeme. -/
theorem next_of_ne_nil (hne : s.skipLayout.unread ≠ []) :
    ∃ l : Lexeme, l = Lexeme.read s.skipLayout.unread ∧ l.Takes s.skipLayout.unread ∧
      s.next = (s.skipLayout.place l, s.skipLayout.behind l) := by
  refine ⟨_, rfl, ?_, rfl⟩
  obtain ⟨c, rest, hcons⟩ := List.exists_cons_of_ne_nil hne
  rw [hcons]
  exact Lexeme.read_takes c rest

theorem take_of_end (n : Nat) {t : Token} {s' : Scanner} (hnext : s.next = (t, s'))
    (hend : t.isEof = true) : s.take (n + 1) = ([t], s') := by
  rw [take, hnext]
  exact if_pos hend

theorem take_of_more (n : Nat) {t : Token} {s' : Scanner} (hnext : s.next = (t, s'))
    (hend : t.isEof = false) : s.take (n + 1) = (t :: (s'.take n).1, (s'.take n).2) := by
  rw [take, hnext]
  exact if_neg (by simp [hend])

/-- Taking a lexeme leaves less to read. -/
theorem unread_behind_lt {l : Lexeme} (htakes : l.Takes s.skipLayout.unread) :
    (s.skipLayout.behind l).unread.length < s.unread.length := by
  have hle : s.skipLayout.unread.length ≤ s.unread.length :=
    (List.dropWhile_suffix Byte.isLayout).length_le
  have hpos := htakes.width_pos
  have hwidth := htakes.width_le
  simp only [behind, List.length_drop]
  omega

/-- A scanner with steps enough tiles what it has not read. -/
theorem tiles_take : ∀ {n : Nat} {s : Scanner}, s.On source → s.unread.length < n →
    Token.Tiles source s.position.offset (s.take n).1
  | 0, s, _, hn => absurd hn (Nat.not_lt_zero _)
  | n + 1, s, h, hn => by
      have hhere := on_skipLayout h
      have hblank := blank_skipLayout h
      have hle : s.position.offset ≤ s.skipLayout.position.offset := by
        rw [skipLayout_offset]
        exact Nat.le_add_right _ _
      by_cases hnil : s.skipLayout.unread = []
      · have hplaced : (s.skipLayout.place (.plain .eof [])).Placed source :=
          placed_place hhere (Nat.zero_le _) (fun hk => absurd rfl hk) rfl
        have hend : s.skipLayout.position.offset = source.length :=
          Nat.le_antisymm hhere.position_true.offset_le
            (List.drop_eq_nil_iff.mp (hhere.unread_eq.symm.trans hnil))
        rw [take_of_end n (next_of_nil hnil) rfl]
        exact Token.tiles_end hplaced rfl rfl hle hend hblank
      · obtain ⟨l, -, htakes, hnext⟩ := next_of_ne_nil hnil
        have hplaced := placed_place hhere htakes.width_le (fun _ => htakes.width_pos)
          htakes.stands
        have hmark : (s.skipLayout.place l).isEof = false := decide_eq_false htakes.kind_ne
        have hless := unread_behind_lt htakes
        rw [take_of_more n hnext hmark]
        exact Token.tiles_cons hplaced htakes.kind_ne hmark hle hblank
          (tiles_take (on_behind hhere l) (by omega))

end Scanner

theorem Scanner.on_ofSource (source : Text) : (Scanner.ofSource source).On source :=
  ⟨Position.trueIn_start source, rfl⟩

theorem Token.endsOnce_scan (source : Text) : EndsOnce (Token.scan source).1 :=
  (Scanner.tiles_take (Scanner.on_ofSource source) (Nat.lt_succ_self _)).endsOnce

/-- The tokens of every source, with lexical errors or without, tile it. -/
theorem scan_tiles (source : Text) : Token.Tiles source 0 (Token.scan source).1 :=
  Scanner.tiles_take (Scanner.on_ofSource source) (Nat.lt_succ_self _)

end Scriptlet
