import Scriptlet.Parse.Cursor
import Scriptlet.Proofs.Token.ReadBack
import Scriptlet.Proofs.Token.Tiling

/-!
# Texts made of tokens

A token is legible (`Token.Legible`) when the text it is written as gives it
back, in front of everything that does not run into it. The tokens of a source
without lexical errors are all legible (`legible_scan`), and so are the two
halves of a signed number and a number with a minus put in front of it.

`Lexes s ts rest` says that `s` is made of the tokens `ts`, with layout
anywhere between them, up to `rest`. Such texts compose (`Lexes.append`), and
one with nothing left over scans to the tokens it is made of, wherever those
stood before (`scan_of_lexes`).
-/

namespace Scriptlet

/-! ## What is read without a fault -/

/-- Kinds that have one spelling, which is their name. -/
def Kind.isSpelt (k : Kind) : Bool :=
  k.isVerbatim && k ≠ .integer && k ≠ .float && k ≠ .ident

namespace Lexeme

theorem word_spelt {s : Text} (h : (word s).kind.isSpelt = true) :
    (word s).content = (word s).kind.name := by
  rcases Kind.ofWord_cases (s.takeWhile fun c => Byte.isLetter c || Byte.isDigit c) with
    hk | ⟨-, hname⟩
  · have hident : (word s).kind = .ident := hk
    rw [hident] at h
    cases h
  · exact hname.symm

/-- Only a fault makes a token illegal, and a kind with one spelling is read
from that spelling. -/
theorem read_cases {c : UInt8} {s : Text} (hfault : (read (c :: s)).fault? = none) :
    (read (c :: s)).kind = .string ∨ (read (c :: s)).kind.isVerbatim = true ∧
      ((read (c :: s)).kind.isSpelt = true →
        (read (c :: s)).content = (read (c :: s)).kind.name) := by
  rw [read] at hfault ⊢
  split at hfault
  · rename_i hletter
    rw [if_pos hletter]
    exact Or.inr ⟨Kind.isVerbatim_ofWord _, word_spelt⟩
  · rename_i hletter
    rw [if_neg hletter]
    split at hfault
    · rename_i hnumber
      rw [if_pos hnumber, number_eq]
      dsimp only [plain]
      split <;> exact Or.inr ⟨rfl, fun h => by cases h⟩
    · rename_i hnumber
      rw [if_neg hnumber]
      split at hfault
      · rename_i hquote
        rw [if_pos hquote]
        unfold quoted at hfault ⊢
        split at hfault
        · exact Or.inl rfl
        · cases hfault
      · rename_i hquote
        rw [if_neg hquote]
        unfold symbol at hfault ⊢
        split at hfault
        · rename_i k hsymbol
          obtain ⟨hmem, -⟩ := Kind.symbolAt?_eq_some hsymbol
          exact Or.inr ⟨Kind.isVerbatim_symbol k hmem, fun _ => rfl⟩
        · cases hfault

end Lexeme

/-! ## Legible tokens -/

namespace Token

/-- A token without its place in the source. -/
def erase (t : Token) : Token := { t with start := .start, stop := .start }

/-- The text that a token is written as. -/
def written (t : Token) : Text :=
  if t.kind = .string then Byte.quote :: (t.lexeme ++ [Byte.quote]) else t.lexeme

structure Legible (t : Token) : Prop where
  first : ∃ c s, t.written = c :: s ∧ Byte.isLayout c = false
  reads : ∀ rest, t.kind.Leaves rest →
    Lexeme.read (t.written ++ rest) = ⟨t.kind, t.lexeme, t.length, none⟩
  length_eq : t.length = t.written.length
  not_end : t.kind ≠ .eof ∧ t.isEof = false
  not_invalid : t.isInvalid = false
  spelt : t.kind.isSpelt = true → t.lexeme = t.kind.name

theorem written_of_ne {t : Token} (h : t.kind ≠ .string) : t.written = t.lexeme := if_neg h

theorem leaves_nil (k : Kind) : k.Leaves [] := fun _ h => by cases h

end Token

/-- A lexeme that is read without a fault is put down as a legible token. -/
theorem Scanner.legible_place {s : Scanner} {c : UInt8} {r : Text} (hunread : s.unread = c :: r)
    (hc : Byte.isLayout c = false) (hfault : (Lexeme.read s.unread).fault? = none) :
    (s.place (Lexeme.read s.unread)).Legible := by
  rw [hunread] at hfault ⊢
  have htakes := Lexeme.read_takes c r
  have hstands := htakes.stands
  have hwritten : (s.place (Lexeme.read (c :: r))).written
      = (c :: r).take (Lexeme.read (c :: r)).width := by
    rcases Lexeme.read_cases hfault with hk | ⟨hk, -⟩
    · rw [hk] at hstands
      rw [hstands]
      exact if_pos hk
    · have hne : (Lexeme.read (c :: r)).kind ≠ .string := fun h => by
        rw [h] at hk
        cases hk
      refine (Token.written_of_ne hne).trans ?_
      show (Lexeme.read (c :: r)).content = _
      revert hk hstands
      cases (Lexeme.read (c :: r)).kind
      case string | illegal | eof => intro _ hk; cases hk
      all_goals exact fun hstands _ => hstands.symm
  refine ⟨?_, ?_, ?_, ⟨htakes.kind_ne, decide_eq_false htakes.kind_ne⟩, ?_, ?_⟩
  · obtain ⟨n, hn⟩ := Nat.exists_eq_succ_of_ne_zero (Nat.ne_of_gt htakes.width_pos)
    exact ⟨c, r.take n, by rw [hwritten, hn, List.take_succ_cons], hc⟩
  · intro rest hrest
    rw [hwritten, Lexeme.read_again hfault hrest]
    show Lexeme.read (c :: r) = ⟨_, _, _, none⟩
    rw [← hfault]
    rfl
  · show (Lexeme.read (c :: r)).width = _
    rw [hwritten, List.length_take, Nat.min_eq_left htakes.width_le]
  · show (Lexeme.read (c :: r)).fault?.isSome = false
    rw [hfault]
    rfl
  · intro hspelt
    rcases Lexeme.read_cases hfault with hk | ⟨-, hname⟩
    · rw [show (s.place (Lexeme.read (c :: r))).kind = .string from hk] at hspelt
      cases hspelt
    · exact hname hspelt

/-! ## Scanned tokens are legible -/

namespace Scanner

variable {s : Scanner}

/-- Past the layout stands no more of it. -/
theorem skipLayout_cons {c : UInt8} {r : Text} (h : s.skipLayout.unread = c :: r) :
    Byte.isLayout c = false := by
  have hhead := List.head?_dropWhile_not Byte.isLayout s.unread
  rw [show s.unread.dropWhile Byte.isLayout = c :: r from h] at hhead
  exact hhead

theorem errors_le_take : ∀ (n : Nat) (s : Scanner), s.errors <+: (s.take n).2.errors
  | 0, s => List.prefix_refl _
  | n + 1, s => by
      have hnext : s.errors <+: s.next.2.errors := List.prefix_append _ _
      cases hend : s.next.1.isEof with
      | true =>
          rw [take_of_end n rfl hend]
          exact hnext
      | false =>
          rw [take_of_more n rfl hend]
          exact hnext.trans (errors_le_take n _)

theorem legible_take : ∀ {n : Nat} {s : Scanner}, (s.take n).2.errors = [] →
    ∀ t ∈ (s.take n).1, t.kind ≠ .eof → t.Legible
  | 0, _, _, t, ht, _ => by cases ht
  | n + 1, s, herr, t, ht, hk => by
      by_cases hnil : s.skipLayout.unread = []
      · rw [take_of_end n (next_of_nil hnil) rfl, List.mem_singleton] at ht
        exact absurd (congrArg Token.kind ht) hk
      · obtain ⟨l, rfl, htakes, hnext⟩ := next_of_ne_nil hnil
        obtain ⟨c, r, hcons⟩ := List.exists_cons_of_ne_nil hnil
        rw [take_of_more n hnext (decide_eq_false htakes.kind_ne)] at ht herr
        rcases List.mem_cons.mp ht with rfl | ht
        · -- a fault would have left an error
          have hle := errors_le_take n (s.skipLayout.behind (Lexeme.read s.skipLayout.unread))
          rw [herr, List.prefix_nil] at hle
          have hfault : (Lexeme.read s.skipLayout.unread).fault? = none := by
            simpa [behind] using (List.append_eq_nil_iff.mp hle).2
          exact legible_place hcons (skipLayout_cons hcons) hfault
        · exact legible_take herr t ht hk

end Scanner

theorem legible_scan {source : Text} (h : (Token.scan source).2 = []) :
    ∀ t ∈ (Token.scan source).1, t.kind ≠ .eof → t.Legible :=
  Scanner.legible_take (n := source.length + 1) (s := .ofSource source) h

/-! ## Numbers and their minus -/

theorem Byte.not_isLayout_of_isDigit {c : UInt8} (h : isDigit c = true) : isLayout c = false := by
  simp only [isDigit, isLayout, Bool.and_eq_true, decide_eq_true_eq] at h ⊢
  grind

theorem Byte.not_isLetter_of_isDigit {c : UInt8} (h : isDigit c = true) : isLetter c = false := by
  simp only [isDigit, isLetter, isLower, isUpper, Bool.and_eq_true, decide_eq_true_eq] at h ⊢
  grind

namespace Lexeme

/-- A minus in front of a number becomes part of it. -/
theorem number_minus {s : Text} (h : startsWithDigit s = true) :
    number (Byte.minus :: s) =
      ⟨(number s).kind, Byte.minus :: (number s).content, (number s).width + 1, none⟩ := by
  cases s with
  | nil => cases h
  | cons d s =>
      have hd : Byte.isDigit d = true := h
      have hwhole : wholePart (d :: s) = d :: digitRun s := wholePart_cons (by simp [hd])
      have hsigned : wholePart (Byte.minus :: d :: s) = Byte.minus :: d :: digitRun s := by
        rw [wholePart_cons (by simp [h]), digitRun, if_pos (by simp [hd])]
      have hfraction : fractionOf (Byte.minus :: d :: s) = fractionOf (d :: s) := by
        rw [fractionOf, fractionOf, hwhole, hsigned]
        rfl
      rw [number_eq, number_eq, hwhole, hsigned, hfraction]
      rfl

theorem read_digit {s : Text} (h : startsWithDigit s = true) : read s = number s := by
  cases s with
  | nil => cases h
  | cons d s =>
      have hd : Byte.isDigit d = true := h
      exact read_number (Byte.not_isLetter_of_isDigit hd) (by simp [hd])

theorem read_minus {s : Text} (h : startsWithDigit s = true) :
    read (Byte.minus :: s) = number (Byte.minus :: s) :=
  read_number rfl (by simp [h])

/-- Without a digit behind it, a minus does not start a number. -/
theorem read_minus_kind {s : Text} (h : startsWithDigit s = false) :
    (read (Byte.minus :: s)).kind ≠ .integer ∧ (read (Byte.minus :: s)).kind ≠ .float := by
  have hread : read (Byte.minus :: s) = symbol (Byte.minus :: s) := by
    rw [read, if_neg (by decide), if_neg (by simp [h]; decide), if_neg (by decide)]
  rw [hread, symbol]
  cases hsymbol : Kind.symbolAt? (Byte.minus :: s) with
  | none => exact ⟨by simp, by simp⟩
  | some k =>
      obtain ⟨hmem, -⟩ := Kind.symbolAt?_eq_some hsymbol
      have hall : ∀ k ∈ Kind.doubles ++ Kind.singles, k ≠ .integer ∧ k ≠ .float := by decide
      exact hall k hmem

end Lexeme

namespace Token

variable {t : Token}

/-- The token of a kind with one spelling, standing nowhere. -/
def ofKind (k : Kind) : Token :=
  { kind := k, lexeme := k.name, start := .start, stop := .start, length := k.name.length,
    isEof := false, isInvalid := false }

theorem written_of_isSpelt {k : Kind} (hk : k.isSpelt = true) (hkind : t.kind = k) :
    t.written = t.lexeme := by
  refine written_of_ne fun h => ?_
  rw [← hkind, h] at hk
  cases hk

/-- Every spelling reads back. -/
theorem legible_of_isSpelt (hk : t.kind.isSpelt = true) (hlexeme : t.lexeme = t.kind.name)
    (hlength : t.length = t.kind.name.length) (hend : t.isEof = false)
    (hvalid : t.isInvalid = false) : t.Legible := by
  have hread : ∀ k : Kind, k.isSpelt = true → Lexeme.read k.name = .plain k k.name := by
    intro k
    cases k <;> decide
  have hfirst : ∀ k : Kind, ∃ c s, k.name = c :: s ∧ Byte.isLayout c = false := by
    intro k
    cases k <;> exact ⟨_, _, rfl, by decide⟩
  have hwritten : t.written = t.kind.name := (written_of_isSpelt hk rfl).trans hlexeme
  have hne : t.kind ≠ .eof := fun h => by
    rw [h] at hk
    cases hk
  obtain ⟨c, s, hname, hc⟩ := hfirst t.kind
  refine ⟨⟨c, s, hwritten.trans hname, hc⟩, fun rest hrest => ?_, by rw [hwritten, hlength],
    ⟨hne, hend⟩, hvalid, fun _ => hlexeme⟩
  have hplain := hread t.kind hk
  rw [hname] at hplain
  have hagain : Lexeme.read ((c :: s).take (Lexeme.read (c :: s)).width ++ rest)
      = Lexeme.read (c :: s) :=
    Lexeme.read_again (by rw [hplain]; rfl) (by rw [hplain]; exact hrest)
  rw [hplain, Lexeme.take_plain (List.prefix_refl _)] at hagain
  rw [hwritten, hname, hagain, hlexeme, hlength, hname]
  rfl

theorem legible_ofKind {k : Kind} (hk : k.isSpelt = true) : (ofKind k).Legible :=
  legible_of_isSpelt hk rfl rfl rfl rfl

theorem legible_minusOf (t : Token) : (Cursor.minusOf t).Legible :=
  legible_of_isSpelt rfl rfl rfl rfl rfl

/-- A number with a minus put in front of it. -/
def negated (t : Token) : Token :=
  { t with lexeme := Byte.minus :: t.lexeme, length := t.length + 1 }

def isNumber (t : Token) : Bool := t.kind = .integer || t.kind = .float

theorem written_of_isNumber (h : t.isNumber = true) : t.written = t.lexeme := by
  refine written_of_ne fun hk => ?_
  simp [isNumber, hk] at h

theorem isSpelt_of_isNumber (h : t.isNumber = true) : t.kind.isSpelt = false := by
  simp only [isNumber, Bool.or_eq_true, decide_eq_true_eq] at h
  rcases h with hk | hk <;> rw [hk] <;> rfl

/-- A number can be read just when it can be read with a minus in front. -/
theorem legible_negated_iff (h : t.isNumber = true)
    (hdigit : Lexeme.startsWithDigit t.lexeme = true) : t.negated.Legible ↔ t.Legible := by
  have hwritten : t.negated.written = Byte.minus :: t.written := by
    rw [written_of_isNumber h]
    exact written_of_isNumber (t := t.negated) h
  have hspelt : ¬ t.kind.isSpelt = true := by simp [isSpelt_of_isNumber h]
  have hreads : ∀ rest, Lexeme.read (t.negated.written ++ rest)
      = ⟨t.kind, Byte.minus :: t.lexeme, t.length + 1, none⟩ ↔
      Lexeme.read (t.written ++ rest) = ⟨t.kind, t.lexeme, t.length, none⟩ := by
    intro rest
    have hstart : Lexeme.startsWithDigit (t.written ++ rest) = true := by
      rw [written_of_isNumber h]
      cases hlexeme : t.lexeme with
      | nil =>
          rw [hlexeme] at hdigit
          cases hdigit
      | cons d s =>
          rw [hlexeme] at hdigit
          exact hdigit
    have hfault : (Lexeme.number (t.written ++ rest)).fault? = none := by
      rw [Lexeme.number_eq]
      rfl
    rw [hwritten, List.cons_append, Lexeme.read_minus hstart, Lexeme.number_minus hstart,
      Lexeme.read_digit hstart, Lexeme.mk.injEq, List.cons.injEq, Nat.add_right_cancel_iff]
    generalize Lexeme.number (t.written ++ rest) = l at hfault ⊢
    cases l
    cases hfault
    simp
  constructor
  · intro hlegible
    refine ⟨?_, fun rest hrest => (hreads rest).mp (hlegible.reads rest hrest), ?_,
      hlegible.not_end, hlegible.not_invalid, fun hk => absurd hk hspelt⟩
    · rw [written_of_isNumber h]
      cases hlexeme : t.lexeme with
      | nil =>
          rw [hlexeme] at hdigit
          cases hdigit
      | cons d s =>
          rw [hlexeme] at hdigit
          exact ⟨d, s, rfl, Byte.not_isLayout_of_isDigit hdigit⟩
    · have hlength := hlegible.length_eq
      rw [hwritten] at hlength
      exact Nat.succ.inj hlength
  · intro hlegible
    refine ⟨⟨Byte.minus, t.written, hwritten, rfl⟩,
      fun rest hrest => (hreads rest).mpr (hlegible.reads rest hrest), ?_,
      hlegible.not_end, hlegible.not_invalid, fun hk => absurd hk hspelt⟩
    rw [hwritten]
    exact congrArg Nat.succ hlegible.length_eq

theorem erase_eq_iff {u : Token} : t.erase = u.erase ↔ t.kind = u.kind ∧
    t.lexeme = u.lexeme ∧ t.length = u.length ∧ t.isEof = u.isEof ∧ t.isInvalid = u.isInvalid := by
  simp only [erase, mk.injEq, true_and]

/-- Whether a token is legible does not depend on its place. -/
theorem legible_of_erase_eq {u : Token} (h : t.erase = u.erase) (ht : t.Legible) : u.Legible := by
  rw [erase_eq_iff] at h
  cases t
  cases u
  obtain ⟨rfl, rfl, rfl, rfl, rfl⟩ := h
  exact ⟨ht.first, ht.reads, ht.length_eq, ht.not_end, ht.not_invalid, ht.spelt⟩

theorem legible_unsignedOf (hs : Cursor.isSignedNumber t = true) (ht : t.Legible) :
    (Cursor.unsignedOf t).Legible := by
  simp only [Cursor.isSignedNumber, Bool.and_eq_true, beq_iff_eq] at hs
  obtain ⟨hnumber, hminus⟩ := hs
  have hnumber : t.isNumber = true := by simpa [isNumber] using hnumber
  obtain ⟨ds, hlexeme⟩ : ∃ ds, t.lexeme = Byte.minus :: ds := List.head?_eq_some_iff.mp hminus
  have hread := ht.reads [] (leaves_nil _)
  rw [List.append_nil, written_of_isNumber hnumber, hlexeme] at hread
  have hdigit : Lexeme.startsWithDigit ds = true := by
    refine eq_true_of_ne_false fun hno => ?_
    obtain ⟨hinteger, hfloat⟩ := Lexeme.read_minus_kind hno
    rw [hread] at hinteger hfloat
    simp [isNumber, hinteger, hfloat] at hnumber
  have hpos : 0 < t.length := by
    rw [ht.length_eq, written_of_isNumber hnumber, hlexeme]
    exact Nat.succ_pos _
  have herase : t.erase = (Cursor.unsignedOf t).negated.erase := by
    simp only [erase, negated, Cursor.unsignedOf, hlexeme, List.tail_cons, mk.injEq, true_and,
      and_true]
    omega
  have hlegible := legible_of_erase_eq herase ht
  refine (legible_negated_iff (t := Cursor.unsignedOf t) hnumber ?_).mp hlegible
  rw [Cursor.unsignedOf, hlexeme]
  exact hdigit

end Token

/-! ## Texts made of tokens -/

inductive Lexes : Text → List Token → Text → Prop where
  | done {s : Text} : Lexes s [] s
  | blank {c : UInt8} {s rest : Text} {ts : List Token} : Byte.isLayout c = true →
      Lexes s ts rest → Lexes (c :: s) ts rest
  | token {t : Token} {s rest : Text} {ts : List Token} : t.Legible → t.kind.Leaves s →
      Lexes s ts rest → Lexes (t.written ++ s) (t :: ts) rest

theorem Lexes.append {s m rest : Text} {ts us : List Token} (h : Lexes s ts m)
    (h' : Lexes m us rest) : Lexes s (ts ++ us) rest := by
  induction h with
  | done => exact h'
  | blank hc _ ih => exact .blank hc (ih h')
  | token ht hleaves _ ih => exact .token ht hleaves (ih h')

theorem Lexes.legible {s rest : Text} {ts : List Token} (h : Lexes s ts rest) :
    ∀ t ∈ ts, t.Legible := by
  induction h with
  | done => exact fun _ h => by cases h
  | blank _ _ ih => exact ih
  | token ht _ _ ih => exact List.forall_mem_cons.mpr ⟨ht, ih⟩

namespace Scanner

variable {s : Scanner}

/-- Layout in front makes no difference to the tokens. -/
theorem take_layout {c : UInt8} {r : Text} (hunread : s.unread = c :: r)
    (hc : Byte.isLayout c = true) (n : Nat) :
    s.take (n + 1)
      = Scanner.take (n + 1) { s with position := s.position.step c, unread := r } := by
  have hskip : s.skipLayout
      = Scanner.skipLayout { s with position := s.position.step c, unread := r } := by
    simp only [skipLayout, hunread, List.takeWhile_cons_of_pos hc, List.dropWhile_cons_of_pos hc,
      Position.advance_cons]
  have hnext : s.next = Scanner.next { s with position := s.position.step c, unread := r } := by
    rw [next, next, hskip]
  rw [take, take, hnext]

/-- A legible token at the head is what the scanner takes. -/
theorem next_legible {t : Token} {r : Text} (ht : t.Legible) (hleaves : t.kind.Leaves r)
    (hunread : s.unread = t.written ++ r) :
    ∃ u s', s.next = (u, s') ∧ u.erase = t.erase ∧ s'.unread = r ∧ s'.errors = s.errors := by
  obtain ⟨c, w, hwritten, hc⟩ := ht.first
  have hskip : s.skipLayout = s := by
    have hneg : ¬ Byte.isLayout c = true := by simp [hc]
    simp only [skipLayout, hunread, hwritten, List.cons_append, List.takeWhile_cons_of_neg hneg,
      List.dropWhile_cons_of_neg hneg, Position.advance_nil]
    rw [← List.cons_append, ← hwritten, ← hunread]
  have hread := ht.reads r hleaves
  rw [← hunread] at hread
  refine ⟨s.place ⟨t.kind, t.lexeme, t.length, none⟩, s.behind ⟨t.kind, t.lexeme, t.length, none⟩,
    by rw [next, hskip, hread], ?_, ?_, ?_⟩
  · simp [place, Token.erase, ht.not_end, ht.not_invalid]
  · show s.unread.drop t.length = r
    rw [hunread, ht.length_eq, List.drop_left]
  · simp [behind]

theorem take_of_lexes {text rest : Text} {ts : List Token} (h : Lexes text ts rest)
    (hrest : rest = []) : ∀ {s : Scanner} {n : Nat}, s.unread = text → text.length < n →
    (s.take n).1.map Token.erase = ts.map Token.erase ++ [Token.endOfInput .start] ∧
      (s.take n).2.errors = s.errors := by
  induction h with
  | done =>
      rintro s (_ | n) hunread hn
      · exact absurd hn (Nat.not_lt_zero _)
      · have hnil : s.skipLayout.unread = [] := by simp [skipLayout, hunread, hrest]
        rw [take_of_end n (next_of_nil hnil) rfl]
        exact ⟨rfl, List.append_nil _⟩
  | blank hc _ ih =>
      rintro s (_ | n) hunread hn
      · exact absurd hn (Nat.not_lt_zero _)
      · rw [take_layout hunread hc n]
        exact ih hrest rfl (Nat.lt_of_succ_lt hn)
  | @token t r _ ts ht hleaves _ ih =>
      rintro s (_ | n) hunread hn
      · exact absurd hn (Nat.not_lt_zero _)
      · obtain ⟨u, s', hnext, herase, hr, herr⟩ := next_legible ht hleaves hunread
        obtain ⟨c, w, hwritten, -⟩ := ht.first
        have hlength : r.length < n := by
          rw [hwritten, List.length_append, List.length_cons] at hn
          omega
        have hend : u.isEof = false := (congrArg Token.isEof herase).trans ht.not_end.2
        obtain ⟨htokens, herrors⟩ := ih hrest hr hlength
        rw [take_of_more n hnext hend, List.map_cons, List.map_cons, List.cons_append, herase,
          htokens]
        exact ⟨rfl, herrors.trans herr⟩

end Scanner

/-- A text made of tokens scans to them, without errors. -/
theorem scan_of_lexes {text : Text} {ts : List Token} (h : Lexes text ts []) :
    (Token.scan text).1.map Token.erase = ts.map Token.erase ++ [Token.endOfInput .start] ∧
      (Token.scan text).2 = [] :=
  Scanner.take_of_lexes h rfl (s := .ofSource text) rfl (Nat.lt_succ_self _)

end Scriptlet
