import Mathlib.Data.List.TakeWhile
import Scriptlet.Proofs.Token.Isolated
import Scriptlet.Proofs.Token.Lexing
import Scriptlet.Shell.Basic

/-!
# Runs of the scanner

What `Scanner.all` does, told token by token: `all_of_end` and `all_of_more` are
its two cases, with no count of steps in them, and `all_induction` is the
induction that goes with them.

The second half puts more text behind what a scanner has to read, with layout
in between. A run in which every string literal is closed is then the first
part of the longer run (`all_extend_closed`); a string literal that is not
closed reaches over into the new text (`all_extend_open`).
-/

namespace Scriptlet

namespace Lexeme

/-- A string literal that is not closed takes all there is, and more if more is
put behind it. -/
theorem isOpen_read {c : UInt8} {s : Text} (hopen : (read (c :: s)).isOpen = true) :
    c = Byte.quote ∧ (read (c :: s)).width = s.length + 1 ∧ ∀ b rest,
      s.length + 1 < (read (c :: s ++ b :: rest)).width := by
  obtain ⟨hkind, rfl⟩ := isOpen_read_iff.mp hopen
  have hnone : stringBody? s = none := by
    cases hbody : stringBody? s with
    | none => rfl
    | some body =>
        rw [read_quoted, quoted, hbody] at hkind
        cases hkind
  refine ⟨rfl, by rw [read_quoted, quoted, hnone], fun b rest => ?_⟩
  rw [List.cons_append, read_quoted, quoted]
  cases hbody : stringBody? (s ++ b :: rest) with
  | none => simp
  | some body =>
      obtain ⟨hpre, heven⟩ := (Munch.closes_first hbody).1
      -- a closing quote within the shorter text would have closed that
      have hlong : s.length ≤ body.length := by
        refine Nat.le_of_not_lt fun hlt => Munch.closes_none hnone body ⟨?_, heven⟩
        refine List.prefix_of_prefix_length_le hpre (List.prefix_append _ _) ?_
        rw [List.length_append, List.length_singleton]
        exact hlt
      show s.length + 1 < body.length + 2
      omega

/-- What starts with a quote is a string literal or at fault. -/
theorem read_quote_cases (s : Text) :
    (read (Byte.quote :: s)).kind = .string ∨ (read (Byte.quote :: s)).fault?.isSome = true := by
  rw [read_quoted, quoted]
  cases stringBody? s with
  | none => exact Or.inr rfl
  | some body => exact Or.inl rfl

end Lexeme

namespace Scanner

variable {s : Scanner} {source : Text}

/-! ## The cases of a run -/

/-- Steps beyond the end of the input make no difference. -/
theorem take_eq_take : ∀ {n m : Nat} {s : Scanner}, s.unread.length < n → s.unread.length < m →
    s.take n = s.take m
  | 0, _, _, hn, _ => absurd hn (Nat.not_lt_zero _)
  | _, 0, _, _, hm => absurd hm (Nat.not_lt_zero _)
  | n + 1, m + 1, s, hn, hm => by
      by_cases hnil : s.skipLayout.unread = []
      · rw [take_of_end n (next_of_nil hnil) rfl, take_of_end m (next_of_nil hnil) rfl]
      · obtain ⟨l, -, htakes, hnext⟩ := next_of_ne_nil hnil
        have hmark : (s.skipLayout.place l).isEof = false := decide_eq_false htakes.kind_ne
        have hless := unread_behind_lt htakes
        rw [take_of_more n hnext hmark, take_of_more m hnext hmark,
          take_eq_take (n := n) (m := m) (by omega) (by omega)]

theorem all_of_end (hnil : s.skipLayout.unread = []) :
    s.all = ([.endOfInput s.skipLayout.position], s.skipLayout) := by
  have hstay : s.skipLayout.behind (.plain .eof []) = s.skipLayout := by
    simp [behind, Lexeme.plain]
  rw [all, take_of_end _ (next_of_nil hnil) rfl, hstay]
  rfl

theorem all_of_more {c : UInt8} {r : Text} (hcons : s.skipLayout.unread = c :: r) :
    s.all = (s.skipLayout.place (Lexeme.read (c :: r)) ::
        (s.skipLayout.behind (Lexeme.read (c :: r))).all.1,
      (s.skipLayout.behind (Lexeme.read (c :: r))).all.2) := by
  obtain ⟨l, hl, htakes, hnext⟩ := next_of_ne_nil (s := s)
    (by rw [hcons]; exact List.cons_ne_nil _ _)
  have hless := unread_behind_lt htakes
  rw [all, take_of_more _ hnext (decide_eq_false htakes.kind_ne),
    take_eq_take (m := _ + 1) hless (Nat.lt_succ_self _), ← hcons, ← hl]
  rfl

/-- Every run comes to the end of the input, one token after the other. -/
theorem all_induction {P : Scanner → Prop} (hend : ∀ s, s.skipLayout.unread = [] → P s)
    (hmore : ∀ s c r, s.skipLayout.unread = c :: r →
      P (s.skipLayout.behind (Lexeme.read (c :: r))) → P s) (s : Scanner) : P s := by
  generalize hn : s.unread.length = n
  induction n using Nat.strongRecOn generalizing s with
  | ind n ih =>
      cases hunread : s.skipLayout.unread with
      | nil => exact hend s hunread
      | cons c r =>
          have htakes := Lexeme.read_takes c r
          rw [← hunread] at htakes
          have hless := unread_behind_lt htakes
          rw [hunread] at hless
          exact hmore s c r hunread (ih _ (hn ▸ hless) _ rfl)

/-- The count is that of the errors. -/
def Counted (s : Scanner) : Prop := s.errorCount = s.errors.length

theorem counted_ofSource (source : Text) : (ofSource source).Counted := rfl

theorem Counted.behind (h : s.Counted) (l : Lexeme) : (s.behind l).Counted := by
  rw [Counted] at h
  cases hfault : l.fault? with
  | none => simp [Counted, Scanner.behind, hfault, h]
  | some fault => simp [Counted, Scanner.behind, hfault, h]

theorem Counted.all (h : s.Counted) : s.all.2.Counted := by
  induction s using all_induction with
  | hend s hnil =>
      rw [all_of_end hnil]
      exact h
  | hmore s c r hcons ih =>
      rw [all_of_more hcons]
      exact ih (Counted.behind (s := s.skipLayout) h _)

theorem tiles_all (h : s.On source) : Token.Tiles source s.position.offset s.all.1 :=
  tiles_take h (Nat.lt_succ_self _)

/-! ## Layout in front -/

/-- A scanner that stands on no layout skips none. -/
theorem skipLayout_eq_self (h : ∀ c r, s.unread = c :: r → Byte.isLayout c = false) :
    s.skipLayout = s := by
  obtain ⟨p, unread, errors, count⟩ := s
  cases unread with
  | nil => rfl
  | cons c r => simp [skipLayout, h c r rfl]

theorem all_skipLayout (s : Scanner) : s.skipLayout.all = s.all := by
  have hagain : s.skipLayout.skipLayout = s.skipLayout :=
    skipLayout_eq_self fun _ _ hcons => skipLayout_cons hcons
  cases hunread : s.skipLayout.unread with
  | nil => rw [all_of_end hunread, all_of_end (by rw [hagain, hunread]), hagain]
  | cons c r => rw [all_of_more hunread, all_of_more (by rw [hagain, hunread]), hagain]

/-- A scanner in front of layout runs like the one behind it. -/
theorem all_behind_layout {gap rest : Text} (hgap : ∀ c ∈ gap, Byte.isLayout c = true)
    (hunread : s.unread = gap ++ rest) :
    s.all = Scanner.all { s with position := s.position.advance gap, unread := rest } := by
  have hskip : s.skipLayout
      = Scanner.skipLayout { s with position := s.position.advance gap, unread := rest } := by
    simp only [skipLayout, hunread, List.takeWhile_append_of_pos hgap,
      List.dropWhile_append_of_pos hgap, Position.advance_append]
  rw [← all_skipLayout s, hskip, all_skipLayout]

/-! ## More text behind the input -/

/-- The scanner with more text behind what it has to read. -/
def extend (s : Scanner) (more : Text) : Scanner := { s with unread := s.unread ++ more }

theorem skipLayout_extend (hne : s.skipLayout.unread ≠ []) (more : Text) :
    (s.extend more).skipLayout = s.skipLayout.extend more := by
  have hne : ¬ (s.unread.dropWhile Byte.isLayout).isEmpty = true := fun h =>
    hne (List.isEmpty_iff.mp h)
  have hshort : (s.unread.takeWhile Byte.isLayout).length ≠ s.unread.length := by
    intro hlength
    have hsplit := congrArg List.length
      (List.takeWhile_append_dropWhile (p := Byte.isLayout) (l := s.unread))
    rw [List.length_append, hlength] at hsplit
    exact hne (by simpa using hsplit)
  simp only [skipLayout, extend, List.takeWhile_append, List.dropWhile_append, if_neg hshort,
    if_neg hne]

theorem place_extend {l : Lexeme} (hw : l.width ≤ s.unread.length) (more : Text) :
    (s.extend more).place l = s.place l := by
  simp only [place, extend, List.take_append_of_le_length hw]

theorem behind_extend {l : Lexeme} (hw : l.width ≤ s.unread.length) (more : Text) :
    (s.extend more).behind l = (s.behind l).extend more := by
  simp only [behind, extend, List.take_append_of_le_length hw, List.drop_append_of_le_length hw]

/-- A run ends behind the last byte. -/
theorem all_position (s : Scanner) : s.all.2.position = s.position.advance s.unread := by
  induction s using all_induction with
  | hend s hnil =>
      have hall : s.unread.takeWhile Byte.isLayout = s.unread := by
        conv_rhs => rw [← List.takeWhile_append_dropWhile (p := Byte.isLayout) (l := s.unread)]
        rw [show s.unread.dropWhile Byte.isLayout = [] from hnil, List.append_nil]
      rw [all_of_end hnil]
      exact congrArg s.position.advance hall
  | hmore s c r hcons ih =>
      rw [all_of_more hcons, ih]
      show ((s.position.advance _).advance (s.skipLayout.unread.take _)).advance
        (s.skipLayout.unread.drop _) = _
      rw [← Position.advance_append, List.take_append_drop, ← Position.advance_append]
      exact congrArg s.position.advance List.takeWhile_append_dropWhile

/-- The source shows whether the string literal at hand is closed. -/
theorem isOpenString_place (h : s.On source) {c : UInt8} {r : Text} (hunread : s.unread = c :: r) :
    Shell.isOpenString source (s.place (Lexeme.read (c :: r))) = (Lexeme.read (c :: r)).isOpen := by
  have hhead : (source.drop s.position.offset).head? = some c := by
    rw [← h.unread_eq, hunread, List.head?_cons]
  have hstart : (s.place (Lexeme.read (c :: r))).start = s.position := rfl
  rw [Bool.eq_iff_iff, Lexeme.isOpen_read_iff, Shell.isOpenString, hstart, hhead]
  show ((decide ((Lexeme.read (c :: r)).kind = .illegal) && (Lexeme.read (c :: r)).fault?.isSome &&
    decide (some c = some Byte.quote)) = true) ↔ _
  rw [Lexeme.read_fault]
  by_cases hk : (Lexeme.read (c :: r)).kind = .illegal <;> simp [hk]

theorem all_ne_nil (s : Scanner) : s.all.1 ≠ [] := by
  cases hunread : s.skipLayout.unread with
  | nil =>
      rw [all_of_end hunread]
      exact List.cons_ne_nil _ _
  | cons c r =>
      rw [all_of_more hunread]
      exact List.cons_ne_nil _ _

/-- In front of layout a lexeme that is closed is taken as it was taken at the
end of the input. -/
theorem all_extend_of_more {c : UInt8} {r : Text} (hcons : s.skipLayout.unread = c :: r)
    (hclosed : (Lexeme.read (c :: r)).isOpen = false) {b : UInt8} (hb : Byte.isLayout b = true)
    (rest : Text) :
    (s.extend (b :: rest)).all = (s.skipLayout.place (Lexeme.read (c :: r)) ::
        ((s.skipLayout.behind (Lexeme.read (c :: r))).extend (b :: rest)).all.1,
      ((s.skipLayout.behind (Lexeme.read (c :: r))).extend (b :: rest)).all.2) := by
  have hne : s.skipLayout.unread ≠ [] := by
    rw [hcons]
    exact List.cons_ne_nil _ _
  have hunread : (s.extend (b :: rest)).skipLayout.unread = c :: (r ++ b :: rest) := by
    rw [skipLayout_extend hne, extend, hcons, List.cons_append]
  have hwidth : (Lexeme.read (c :: r)).width ≤ s.skipLayout.unread.length := by
    rw [hcons]
    exact (Lexeme.read_takes c r).width_le
  rw [all_of_more hunread, ← List.cons_append, Lexeme.read_before_layout hclosed hb,
    skipLayout_extend hne, place_extend hwidth, behind_extend hwidth]

theorem all_extend_closed {b : UInt8} (hb : Byte.isLayout b = true) (rest : Text)
    (h : s.On source) (hclosed : ∀ t ∈ s.all.1, Shell.isOpenString source t = false) :
    (s.extend (b :: rest)).all = (s.all.1.dropLast ++
        (Scanner.all { s.all.2 with position := s.all.2.position.step b, unread := rest }).1,
      (Scanner.all { s.all.2 with position := s.all.2.position.step b, unread := rest }).2) := by
  induction s using all_induction with
  | hend s hnil =>
      have hlayout : ∀ c ∈ s.unread ++ [b], Byte.isLayout c = true := by
        intro c hc
        rcases List.mem_append.mp hc with hc | hc
        · exact List.dropWhile_eq_nil_iff.mp hnil c hc
        · rwa [List.mem_singleton.mp hc]
      have hsplit : (s.extend (b :: rest)).unread = (s.unread ++ [b]) ++ rest := by
        rw [extend, List.append_assoc, List.singleton_append]
      rw [all_behind_layout hlayout hsplit, all_position, all_of_end hnil]
      simp only [extend, skipLayout, Position.advance_append, Position.advance_cons,
        Position.advance_nil, List.dropLast_singleton, List.nil_append]
  | hmore s c r hcons ih =>
      have hhere := on_skipLayout h
      rw [all_of_more hcons, List.forall_mem_cons, isOpenString_place hhere hcons] at hclosed
      rw [all_extend_of_more hcons hclosed.1 hb, ih (on_behind hhere _) hclosed.2,
        all_of_more hcons, List.dropLast_cons_of_ne_nil (all_ne_nil _), List.cons_append]

/-- The offset of the end of the input. -/
def endOffset (s : Scanner) : Nat := s.position.offset + s.unread.length

theorem endOffset_skipLayout (s : Scanner) : s.skipLayout.endOffset = s.endOffset := by
  have hlength := congrArg List.length
    (List.takeWhile_append_dropWhile (p := Byte.isLayout) (l := s.unread))
  rw [List.length_append] at hlength
  rw [endOffset, endOffset, skipLayout_offset, ← hlength, ← Nat.add_assoc]
  rfl

theorem endOffset_behind (s : Scanner) (l : Lexeme) : (s.behind l).endOffset = s.endOffset := by
  simp only [endOffset, behind, Position.advance_offset, List.length_take, List.length_drop]
  omega

/-- A string literal that is not closed takes the end of the input in, if text is
put there. -/
theorem all_extend_of_open {c : UInt8} {r : Text} (hcons : s.skipLayout.unread = c :: r)
    (hopen : (Lexeme.read (c :: r)).isOpen = true) (b : UInt8) (rest : Text) :
    ∃ t ∈ (s.extend (b :: rest)).all.1, (t.kind = .string ∨ t.isInvalid = true) ∧
      t.start.offset ≤ s.endOffset ∧ s.endOffset < t.stop.offset := by
  obtain ⟨rfl, -, hlong⟩ := Lexeme.isOpen_read hopen
  have hlong := hlong b rest
  rw [List.cons_append] at hlong
  have hskip := skipLayout_extend (s := s) (by rw [hcons]; exact List.cons_ne_nil _ _) (b :: rest)
  have hunread : (s.extend (b :: rest)).skipLayout.unread = Byte.quote :: (r ++ b :: rest) := by
    rw [hskip, extend, hcons, List.cons_append]
  have hend : s.endOffset = s.skipLayout.position.offset + (r.length + 1) := by
    rw [← endOffset_skipLayout, endOffset, hcons, List.length_cons]
  have hstop := place_stop (s.extend (b :: rest)).skipLayout
    (l := Lexeme.read (Byte.quote :: (r ++ b :: rest)))
    (by rw [hunread]; exact (Lexeme.read_takes _ _).width_le)
  rw [all_of_more hunread]
  refine ⟨_, List.mem_cons_self, Lexeme.read_quote_cases _, ?_, ?_⟩
  · show (s.extend (b :: rest)).skipLayout.position.offset ≤ _
    rw [hskip, hend]
    exact Nat.le_add_right _ _
  · rw [hstop, hend, hskip]
    exact Nat.add_lt_add_left hlong _

theorem all_extend_open {b : UInt8} (hb : Byte.isLayout b = true) (rest : Text)
    (h : s.On source) (hopen : ∃ t ∈ s.all.1, Shell.isOpenString source t = true) :
    ∃ t ∈ (s.extend (b :: rest)).all.1, (t.kind = .string ∨ t.isInvalid = true) ∧
      t.start.offset ≤ s.endOffset ∧ s.endOffset < t.stop.offset := by
  induction s using all_induction with
  | hend s hnil =>
      obtain ⟨t, ht, hopen⟩ := hopen
      rw [all_of_end hnil, List.mem_singleton] at ht
      subst ht
      cases hopen
  | hmore s c r hcons ih =>
      have hhere := on_skipLayout h
      cases hlit : (Lexeme.read (c :: r)).isOpen with
      | true => exact all_extend_of_open hcons hlit b rest
      | false =>
          have hlater : ∃ t ∈ (s.skipLayout.behind (Lexeme.read (c :: r))).all.1,
              Shell.isOpenString source t = true := by
            obtain ⟨t, ht, hopen⟩ := hopen
            rw [all_of_more hcons] at ht
            rcases List.mem_cons.mp ht with rfl | ht
            · rw [isOpenString_place hhere hcons, hlit] at hopen
              cases hopen
            · exact ⟨t, ht, hopen⟩
          obtain ⟨t, ht, hspan⟩ := ih (on_behind hhere _) hlater
          rw [endOffset_behind, endOffset_skipLayout] at hspan
          rw [all_extend_of_more hcons hlit hb]
          exact ⟨t, List.mem_cons_of_mem _ ht, hspan⟩

end Scanner

/-- Without lexical errors every string literal is closed. -/
theorem Shell.not_isOpenString {source : Text} (h : (Token.scan source).2 = []) {t : Token}
    (ht : t ∈ (Token.scan source).1) : isOpenString source t = false := by
  refine eq_false_of_ne_true fun hopen => ?_
  simp only [isOpenString, Bool.and_eq_true, decide_eq_true_eq] at hopen
  obtain ⟨⟨hkind, hinvalid⟩, -⟩ := hopen
  have hvalid := (legible_scan h t ht (by rw [hkind]; decide)).not_invalid
  rw [hinvalid] at hvalid
  cases hvalid

/-! ## Sources in two parts -/

namespace Token

variable {first : Text} {b : UInt8}

/-- The scanner behind the first part of a source and the byte that sets it off
from the rest. -/
def scannerBehind (first : Text) (b : UInt8) (rest : Text) : Scanner :=
  { (Scanner.ofSource first).all.2 with
    position := Position.start.advance (first ++ [b])
    unread := rest }

theorem on_scannerBehind (first : Text) (b : UInt8) (rest : Text) :
    (scannerBehind first b rest).On (first ++ b :: rest) :=
  (Scanner.on_ofSource _).advance (List.append_assoc first [b] rest).symm rfl

theorem scannerBehind_offset (first : Text) (b : UInt8) (rest : Text) :
    (scannerBehind first b rest).position.offset = first.length + 1 := by
  rw [scannerBehind, Position.advance_offset, List.length_append]
  exact Nat.zero_add _

/-- Where every string literal is closed the first part is scanned by itself. -/
theorem scan_extend_closed (rest : Text) (hb : Byte.isLayout b = true)
    (hclosed : ∀ t ∈ (scan first).1, Shell.isOpenString first t = false) :
    scan (first ++ b :: rest) = ((scan first).1.dropLast ++ (scannerBehind first b rest).all.1,
      (scannerBehind first b rest).all.2.errors) := by
  have hall := Scanner.all_extend_closed hb rest (Scanner.on_ofSource first) hclosed
  have hposition : (Scanner.ofSource first).all.2.position.step b
      = Position.start.advance (first ++ [b]) := by
    rw [Scanner.all_position, Position.advance_append]
    rfl
  rw [hposition] at hall
  show (((Scanner.ofSource first).extend (b :: rest)).all.1,
    ((Scanner.ofSource first).extend (b :: rest)).all.2.errors) = _
  rw [hall]
  rfl

theorem scan_extend_open (rest : Text) (hb : Byte.isLayout b = true)
    (hopen : ∃ t ∈ (scan first).1, Shell.isOpenString first t = true) :
    ∃ t ∈ (scan (first ++ b :: rest)).1, (t.kind = .string ∨ t.isInvalid = true) ∧
      t.start.offset ≤ first.length ∧ first.length < t.stop.offset := by
  have hend : (Scanner.ofSource first).endOffset = first.length := Nat.zero_add _
  rw [← hend]
  exact Scanner.all_extend_open hb rest (Scanner.on_ofSource first) hopen

end Token

end Scriptlet
