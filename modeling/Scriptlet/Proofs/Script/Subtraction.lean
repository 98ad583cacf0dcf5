import Scriptlet.Proofs.Parse.Loosened
import Scriptlet.Proofs.Parse.Placement
import Scriptlet.Proofs.Script.Layout
import Scriptlet.Proofs.Token.Minus

/-!
# A minus behind an operand

A minus that is written together with the number behind it is read as part of the
number, also where it stands behind an operand. A space between the two sets it
apart. `loosened` puts such spaces into a source, at any of the numbers right
behind an operand, and the program stays the same (`parse_subtraction`).

The scanner goes along both texts in step. Up to the next space the texts agree,
and the last byte in front of a space is a minus (`SameToMinus`), so each token is
read from either of them alike, but for the numbers that are set apart
(`Scanner.all_loosened`).
-/

namespace Scriptlet

/-! ## Spaces in a text -/

/-- A text with a space in front of the bytes at some offsets, where `i` is the
offset of its first byte. -/
def spaced (gaps : Nat → Bool) : Nat → Text → Text
  | _, [] => []
  | i, c :: s =>
      if gaps i then Byte.space :: c :: spaced gaps (i + 1) s else c :: spaced gaps (i + 1) s

/-- Texts that agree up to a minus and with it. -/
def SameToMinus (s s' : Text) : Prop :=
  s' = s ∨ ∃ common rest rest', s = common ++ Byte.minus :: rest ∧
    s' = common ++ Byte.minus :: rest'

section Spaced

variable {gaps : Nat → Bool}

theorem spaced_append (gaps : Nat → Bool) (i : Nat) (s rest : Text) :
    spaced gaps i (s ++ rest) = spaced gaps i s ++ spaced gaps (i + s.length) rest := by
  induction s generalizing i with
  | nil => rfl
  | cons c s ih =>
      have hoffset : i + (c :: s).length = i + 1 + s.length := by
        rw [List.length_cons]
        omega
      rw [List.cons_append, spaced, spaced, ih, hoffset]
      split <;> rfl

theorem spaced_take (gaps : Nat → Bool) (i : Nat) {n : Nat} {s : Text} (hn : n ≤ s.length) :
    spaced gaps i s = spaced gaps i (s.take n) ++ spaced gaps (i + n) (s.drop n) := by
  have happend := spaced_append gaps i (s.take n) (s.drop n)
  rwa [List.take_append_drop, List.length_take_of_le hn] at happend

theorem spaced_eq_self {i : Nat} {s : Text}
    (h : ∀ j, i ≤ j → j < i + s.length → gaps j = false) : spaced gaps i s = s := by
  induction s generalizing i with
  | nil => rfl
  | cons c s ih =>
      rw [List.length_cons] at h
      rw [spaced, if_neg (by simp [h i (Nat.le_refl i) (by omega)]),
        ih fun j hj hlt => h j (by omega) (by omega)]

theorem spaced_head {i : Nat} {s : Text} (hne : 0 < s.length) (hgap : gaps i = true)
    (h : ∀ j, i < j → j < i + s.length → gaps j = false) :
    spaced gaps i s = Byte.space :: s := by
  cases s with
  | nil => exact absurd hne (Nat.lt_irrefl 0)
  | cons c s =>
      rw [List.length_cons] at h
      rw [spaced, if_pos hgap, spaced_eq_self fun j hj hlt => h j (by omega) (by omega)]

/-- The one gap is between the first byte and the `n` bytes behind it. -/
theorem spaced_cons_take {c : UInt8} {i n : Nat} {s : Text} (hpos : 0 < n) (hn : n ≤ s.length)
    (h : ∀ j, i ≤ j → j < i + (n + 1) → (gaps j = true ↔ j = i + 1)) :
    spaced gaps i (c :: s) =
      c :: Byte.space :: (s.take n ++ spaced gaps (i + (n + 1)) (s.drop n)) := by
  have hfirst : ¬ gaps i = true := fun hgap => by
    have hoffset := (h i (Nat.le_refl i) (by omega)).mp hgap
    omega
  have hgap : gaps (i + 1) = true := (h (i + 1) (by omega) (by omega)).mpr rfl
  have hlength : (s.take n).length = n := List.length_take_of_le hn
  have hhead : spaced gaps (i + 1) (s.take n) = Byte.space :: s.take n := by
    refine spaced_head (by omega) hgap fun j hj hlt => Bool.eq_false_iff.mpr fun hgap' => ?_
    have hoffset := (h j (by omega) (by omega)).mp hgap'
    omega
  rw [spaced, if_neg hfirst, spaced_take gaps (i + 1) hn, hhead, List.cons_append, Nat.add_assoc,
    Nat.add_comm 1]

/-- Where every gap is behind a minus, the first one is. -/
theorem sameToMinus_spaced {i : Nat} {s : Text}
    (h : ∀ j, i ≤ j → gaps j = true → i < j ∧ s[j - 1 - i]? = some Byte.minus) :
    SameToMinus s (spaced gaps i s) := by
  induction s generalizing i with
  | nil => exact Or.inl rfl
  | cons c s ih =>
      have hhere : ¬ gaps i = true := fun hgap => Nat.lt_irrefl i (h i (Nat.le_refl i) hgap).1
      rw [spaced, if_neg hhere]
      by_cases hgap : gaps (i + 1) = true
      · obtain ⟨-, hminus⟩ := h (i + 1) (Nat.le_succ i) hgap
        simp only [Nat.add_sub_cancel, Nat.sub_self, List.getElem?_cons_zero,
          Option.some.injEq] at hminus
        subst hminus
        exact Or.inr ⟨[], s, _, rfl, rfl⟩
      · have hlater : ∀ j, i + 1 ≤ j → gaps j = true →
            i + 1 < j ∧ s[j - 1 - (i + 1)]? = some Byte.minus := by
          intro j hj hgap'
          have hlt : i + 1 < j := by
            rcases Nat.lt_or_eq_of_le hj with hlt | rfl
            · exact hlt
            · exact absurd hgap' hgap
          refine ⟨hlt, ?_⟩
          have hget := (h j (by omega) hgap').2
          rwa [show j - 1 - i = (j - 1 - (i + 1)) + 1 by omega, List.getElem?_cons_succ] at hget
        rcases ih hlater with heq | ⟨common, rest, rest', hs, hs'⟩
        · exact Or.inl (by rw [heq])
        · exact Or.inr ⟨c :: common, rest, rest', by rw [hs]; rfl, by rw [hs']; rfl⟩

end Spaced

namespace Lexeme

/-- A token is read from its bytes and those up to the next minus. -/
theorem read_sameToMinus {c : UInt8} {r rest : Text}
    (h : SameToMinus ((c :: r).drop (read (c :: r)).width) rest) :
    read ((c :: r).take (read (c :: r)).width ++ rest) = read (c :: r) := by
  rcases h with rfl | ⟨common, later, later', hdrop, rfl⟩
  · rw [List.take_append_drop]
  · obtain ⟨n, htake⟩ := take_width c r
    have hsplit : c :: r = c :: (r.take n ++ common) ++ Byte.minus :: later := by
      rw [List.cons_append, List.append_assoc, ← hdrop, ← List.cons_append, ← htake,
        List.take_append_drop]
    have hlength : (read (c :: (r.take n ++ common) ++ Byte.minus :: later)).width ≤
        (c :: (r.take n ++ common)).length := by
      have htaken := congrArg List.length htake
      rw [List.length_take_of_le (read_takes c r).width_le] at htaken
      rw [← hsplit, htaken, List.length_cons, List.length_cons, List.length_append]
      omega
    have hread := read_before_minus hlength later'
    rw [← hsplit] at hread
    rw [htake, ← hread, List.cons_append, List.cons_append, List.append_assoc]

/-- A minus adds one byte to the number behind it. -/
theorem read_minus_digit {r : Text} (h : startsWithDigit r = true) :
    read (Byte.minus :: r) =
      ⟨(read r).kind, Byte.minus :: (read r).content, (read r).width + 1, none⟩ := by
  rw [read_minus h, number_minus h, read_digit h]

theorem read_minus_space (s : Text) :
    read (Byte.minus :: Byte.space :: s) = plain .minus (text "-") := rfl

end Lexeme

/-! ## Numbers behind an operand -/

namespace Token

/-- The signed numbers right behind an operand. The flag says whether one has
ended in front of the tokens. -/
def subtrahends : Bool → List Token → List Token
  | _, [] => []
  | behind, t :: ts =>
      if behind && Cursor.isSignedNumber t then t :: subtrahends t.kind.endsOperand ts
      else subtrahends t.kind.endsOperand ts

theorem mem_subtrahends_cons {behind : Bool} {t u : Token} {ts : List Token} :
    u ∈ subtrahends behind (t :: ts) ↔ (behind && Cursor.isSignedNumber t) = true ∧ u = t ∨
      u ∈ subtrahends t.kind.endsOperand ts := by
  rw [subtrahends]
  split
  · rename_i h
    simp [h]
  · rename_i h
    simp [h]

theorem mem_of_mem_subtrahends {u : Token} : ∀ {ts : List Token} {behind : Bool},
    u ∈ subtrahends behind ts → u ∈ ts ∧ Cursor.isSignedNumber u = true
  | [], _, h => absurd h List.not_mem_nil
  | t :: ts, behind, h => by
      rcases mem_subtrahends_cons.mp h with ⟨hsigned, rfl⟩ | h
      · exact ⟨List.mem_cons_self, ((Bool.and_eq_true _ _).mp hsigned).2⟩
      · obtain ⟨hmem, hsigned⟩ := mem_of_mem_subtrahends h
        exact ⟨List.mem_cons_of_mem t hmem, hsigned⟩

/-- A signed number has its minus in the source. -/
theorem Placed.minus_at {t : Token} {source : Text} (h : t.Placed source)
    (hs : Cursor.isSignedNumber t = true) : source[t.start.offset]? = some Byte.minus := by
  have hbytes := h.bytes_eq (isVerbatim_of_isNumber (isNumber_of_isSignedNumber hs))
  rw [Cursor.isSignedNumber, Bool.and_eq_true, beq_iff_eq] at hs
  obtain ⟨ds, hlexeme⟩ := List.head?_eq_some_iff.mp hs.2
  rw [hlexeme] at hbytes
  obtain ⟨rest, hrest⟩ := drop_of_bytesIn hbytes
  rw [← List.head?_drop, hrest, List.head?_cons]

end Token

/-- The offsets behind the minus of the chosen signed numbers right behind an
operand. -/
def Token.minusGaps (chosen : Token → Bool) (ts : List Token) (i : Nat) : Bool :=
  (Token.subtrahends false ts).any fun t => chosen t && t.start.offset + 1 == i

/-- A source with a space between the minus and the digits of those numbers. -/
def loosened (chosen : Token → Bool) (source : Text) : Text :=
  spaced (Token.minusGaps chosen (Token.scan source).1) 0 source

namespace Scanner

variable {s : Scanner} {source : Text} {chosen : Token → Bool} {behind : Bool} {gaps : Nat → Bool}

/-- The gaps ahead are those behind the minus of chosen numbers. -/
def Gaps (s : Scanner) (chosen : Token → Bool) (behind : Bool) (gaps : Nat → Bool) : Prop :=
  ∀ i, s.position.offset ≤ i → (gaps i = true ↔
    ∃ t ∈ Token.subtrahends behind s.all.1, chosen t = true ∧ t.start.offset + 1 = i)

theorem Gaps.behind_minus (hgaps : s.Gaps chosen behind gaps) (h : s.On source) {i : Nat}
    (hi : s.position.offset ≤ i) (hgap : gaps i = true) :
    s.position.offset < i ∧ s.unread[i - 1 - s.position.offset]? = some Byte.minus := by
  obtain ⟨t, ht, -, rfl⟩ := (hgaps i hi).mp hgap
  obtain ⟨hmem, hsigned⟩ := Token.mem_of_mem_subtrahends ht
  have htiles := tiles_all h
  have hbeyond := htiles.beyond t hmem
  refine ⟨Nat.lt_succ_of_le hbeyond, ?_⟩
  rw [h.unread_eq, List.getElem?_drop, show s.position.offset +
    (t.start.offset + 1 - 1 - s.position.offset) = t.start.offset by omega]
  exact (htiles.placed t hmem).minus_at hsigned

theorem Gaps.skipLayout (hgaps : s.Gaps chosen behind gaps) :
    s.skipLayout.Gaps chosen behind gaps := by
  intro i hi
  rw [all_skipLayout]
  rw [skipLayout_offset] at hi
  exact hgaps i (by omega)

/-- There is no gap in the layout in front of a token. -/
theorem Gaps.spaced_layout (hgaps : s.Gaps chosen behind gaps) (h : s.On source) :
    spaced gaps s.position.offset (s.unread.takeWhile Byte.isLayout) =
      s.unread.takeWhile Byte.isLayout := by
  refine spaced_eq_self fun i hi hlt => Bool.eq_false_iff.mpr fun hgap => ?_
  obtain ⟨t, ht, -, rfl⟩ := (hgaps i hi).mp hgap
  have hmem : t ∈ s.skipLayout.all.1 := by
    rw [all_skipLayout]
    exact (Token.mem_of_mem_subtrahends ht).1
  have hbeyond := (tiles_all (on_skipLayout h)).beyond t hmem
  rw [skipLayout_offset] at hbeyond
  omega

/-- A signed number starts with a minus and a digit. -/
theorem signed_read {c : UInt8} {r : Text}
    (hs : Cursor.isSignedNumber (s.place (Lexeme.read (c :: r))) = true) :
    c = Byte.minus ∧ Lexeme.startsWithDigit r = true := by
  have hkind : (Lexeme.read (c :: r)).kind = .integer ∨ (Lexeme.read (c :: r)).kind = .float :=
    Cursor.kind_of_isSignedNumber hs
  have hverbatim : (Lexeme.read (c :: r)).kind.isVerbatim = true := by
    rcases hkind with hk | hk <;> rw [hk] <;> rfl
  have hcontent := (Lexeme.standsFor_iff hverbatim).mp (Lexeme.read_takes c r).stands
  obtain ⟨n, htake⟩ := Lexeme.take_width c r
  have hhead : (Lexeme.read (c :: r)).content.head? = some Byte.minus := by
    rw [Cursor.isSignedNumber, Bool.and_eq_true, beq_iff_eq] at hs
    exact hs.2
  rw [← hcontent, htake, List.head?_cons, Option.some.injEq] at hhead
  subst hhead
  refine ⟨rfl, ?_⟩
  by_contra hdigit
  obtain ⟨hinteger, hfloat⟩ := Lexeme.read_minus_kind (Bool.eq_false_iff.mpr hdigit)
  exact hkind.elim hinteger hfloat

/-! ## One token -/

section Token

variable {c : UInt8} {r : Text} (hunread : s.unread = c :: r)
include hunread

theorem behind_offset : (s.behind (Lexeme.read (c :: r))).position.offset =
    s.position.offset + (Lexeme.read (c :: r)).width :=
  place_stop s (by rw [hunread]; exact (Lexeme.read_takes c r).width_le)

theorem behind_unread : (s.behind (Lexeme.read (c :: r))).unread =
    (c :: r).drop (Lexeme.read (c :: r)).width := by
  rw [← hunread]
  rfl

variable (hall : s.all.1 =
  s.place (Lexeme.read (c :: r)) :: (s.behind (Lexeme.read (c :: r))).all.1)
include hall

/-- The gap in a token is the one behind its minus. -/
theorem Gaps.inside (hgaps : s.Gaps chosen behind gaps) (h : s.On source) {i : Nat}
    (hi : s.position.offset ≤ i) (hlt : i < s.position.offset + (Lexeme.read (c :: r)).width) :
    gaps i = true ↔ ((behind && Cursor.isSignedNumber (s.place (Lexeme.read (c :: r)))) = true ∧
      chosen (s.place (Lexeme.read (c :: r))) = true) ∧ i = s.position.offset + 1 := by
  rw [hgaps i hi, hall]
  constructor
  · rintro ⟨t, ht, hchosen, rfl⟩
    rcases Token.mem_subtrahends_cons.mp ht with ⟨hsigned, rfl⟩ | ht
    · exact ⟨⟨hsigned, hchosen⟩, rfl⟩
    · have hbeyond := (tiles_all (on_behind h _)).beyond t (Token.mem_of_mem_subtrahends ht).1
      rw [behind_offset hunread] at hbeyond
      omega
  · rintro ⟨⟨hsigned, hchosen⟩, rfl⟩
    exact ⟨_, Token.mem_subtrahends_cons.mpr (Or.inl ⟨hsigned, rfl⟩), hchosen, rfl⟩

theorem Gaps.later (hgaps : s.Gaps chosen behind gaps) :
    (s.behind (Lexeme.read (c :: r))).Gaps chosen (Lexeme.read (c :: r)).kind.endsOperand gaps := by
  intro i hi
  rw [behind_offset hunread] at hi
  rw [hgaps i (by omega), hall]
  constructor
  · rintro ⟨t, ht, hchosen, rfl⟩
    rcases Token.mem_subtrahends_cons.mp ht with ⟨hsigned, rfl⟩ | ht
    · -- the gap in the number itself is passed
      obtain ⟨rfl, hdigit⟩ := signed_read ((Bool.and_eq_true _ _).mp hsigned).2
      cases r with
      | nil => cases hdigit
      | cons d r =>
          have hpos := (Lexeme.read_takes d r).width_pos
          have hwidth : (Lexeme.read (Byte.minus :: d :: r)).width =
              (Lexeme.read (d :: r)).width + 1 := by
            rw [Lexeme.read_minus_digit hdigit]
          have hle : s.position.offset + (Lexeme.read (Byte.minus :: d :: r)).width ≤
              s.position.offset + 1 := hi
          omega
    · exact ⟨t, ht, hchosen, rfl⟩
  · rintro ⟨t, ht, hchosen, rfl⟩
    exact ⟨t, Token.mem_subtrahends_cons.mpr (Or.inr ht), hchosen, rfl⟩

end Token

/-- A number set apart from its minus is two tokens. -/
theorem all_apart {r rest : Text} (hdigit : Lexeme.startsWithDigit r = true)
    (hread : Lexeme.read (r.take (Lexeme.read r).width ++ rest) = Lexeme.read r) {u : Scanner}
    (hu : u.unread = Byte.minus :: Byte.space :: (r.take (Lexeme.read r).width ++ rest)) :
    ∃ v w x : Scanner, x.unread = rest ∧
      u.all.1 = place v (.plain .minus (text "-")) :: place w (Lexeme.read r) :: x.all.1 := by
  cases r with
  | nil => cases hdigit
  | cons d r =>
      generalize hnumber : (d :: r).take (Lexeme.read (d :: r)).width ++ rest = number at hread hu
      have hminus := Lexeme.read_minus_space number
      have hunread : u.unread = (Byte.minus :: Byte.space :: number).take
          (Lexeme.read (Byte.minus :: Byte.space :: number)).width ++ Byte.space :: number := by
        rw [hu, hminus]
        rfl
      obtain ⟨v, hv, hfirst⟩ := all_of_token rfl hunread (by rw [hu])
      have hspace : ∀ b ∈ [Byte.space], Byte.isLayout b = true := List.all_eq_true.mp rfl
      have hskip : v.all = Scanner.all
          { v with position := v.position.advance [Byte.space], unread := number } :=
        all_behind_layout hspace hv
      obtain ⟨x, hx, hsecond⟩ := all_of_token
        (u := { v with position := v.position.advance [Byte.space], unread := number })
        (Byte.not_isLayout_of_isDigit hdigit) hnumber.symm hread
      rw [hminus, hskip, hsecond] at hfirst
      exact ⟨_, _, x, hx, hfirst⟩

section Token

variable {c : UInt8} {r : Text} (hc : Byte.isLayout c = false) (hunread : s.unread = c :: r)
  (hall : s.all.1 = s.place (Lexeme.read (c :: r)) :: (s.behind (Lexeme.read (c :: r))).all.1)
  (h : s.On source) (hgaps : s.Gaps chosen behind gaps)
  (hmore : ∀ u : Scanner,
    u.unread = spaced gaps (s.position.offset + (Lexeme.read (c :: r)).width)
      ((c :: r).drop (Lexeme.read (c :: r)).width) →
    Loosened Token.erase Token.erase (Lexeme.read (c :: r)).kind.endsOperand
      (s.behind (Lexeme.read (c :: r))).all.1 u.all.1)
  {u : Scanner} (hu : u.unread = spaced gaps s.position.offset (c :: r))
include hunread hall h hgaps

/-- Behind the token the texts agree up to a minus. -/
theorem sameToMinus_behind : SameToMinus ((c :: r).drop (Lexeme.read (c :: r)).width)
    (spaced gaps (s.position.offset + (Lexeme.read (c :: r)).width)
      ((c :: r).drop (Lexeme.read (c :: r)).width)) := by
  have hlater := Gaps.later hunread hall hgaps
  have hsame := sameToMinus_spaced fun i hi hgap =>
    hlater.behind_minus (on_behind h (Lexeme.read (c :: r))) hi hgap
  rwa [behind_unread hunread, behind_offset hunread] at hsame

include hmore hu hc

/-- A token without a gap in it. -/
theorem loosened_same
    (hnone : ¬ ((behind && Cursor.isSignedNumber (s.place (Lexeme.read (c :: r)))) = true ∧
      chosen (s.place (Lexeme.read (c :: r))) = true)) :
    Loosened Token.erase Token.erase behind s.all.1 u.all.1 := by
  have hwidth := (Lexeme.read_takes c r).width_le
  have hnogap : spaced gaps s.position.offset ((c :: r).take (Lexeme.read (c :: r)).width) =
      (c :: r).take (Lexeme.read (c :: r)).width := by
    refine spaced_eq_self fun i hi hlt => Bool.eq_false_iff.mpr fun hgap => ?_
    rw [List.length_take_of_le hwidth] at hlt
    exact hnone ((Gaps.inside hunread hall hgaps h hi hlt).mp hgap).1
  have hread := Lexeme.read_sameToMinus (sameToMinus_behind hunread hall h hgaps)
  rw [spaced_take gaps s.position.offset hwidth, hnogap] at hu
  obtain ⟨v, hv, hall'⟩ := all_of_token hc hu (by rw [hu, hread])
  rw [hall, hall']
  exact .same rfl (hmore v hv)

/-- A number with a gap behind its minus. -/
theorem loosened_apart
    (hsigned : (behind && Cursor.isSignedNumber (s.place (Lexeme.read (c :: r)))) = true)
    (hchosen : chosen (s.place (Lexeme.read (c :: r))) = true) :
    Loosened Token.erase Token.erase behind s.all.1 u.all.1 := by
  obtain ⟨rfl, hs⟩ := (Bool.and_eq_true _ _).mp hsigned
  obtain ⟨rfl, hdigit⟩ := signed_read hs
  have hraised : (Lexeme.read (Byte.minus :: r)).kind.endsOperand = true :=
    Cursor.endsOperand_of_isSignedNumber hs
  have hnumber := Lexeme.read_minus_digit hdigit
  have hwidth : (Lexeme.read (Byte.minus :: r)).width = (Lexeme.read r).width + 1 := by
    rw [hnumber]
  have hsame := sameToMinus_behind hunread hall h hgaps
  have hinside : ∀ j, s.position.offset ≤ j →
      j < s.position.offset + ((Lexeme.read r).width + 1) →
      (gaps j = true ↔ j = s.position.offset + 1) := by
    intro j hj hlt
    rw [Gaps.inside hunread hall hgaps h hj (by rwa [hwidth]), and_iff_right ⟨hsigned, hchosen⟩]
  rw [hwidth, List.drop_succ_cons] at hsame hmore
  cases r with
  | nil => cases hdigit
  | cons d r =>
      have htakes := Lexeme.read_takes d r
      have hspread := spaced_cons_take (c := Byte.minus) htakes.width_pos htakes.width_le hinside
      have hread := Lexeme.read_sameToMinus hsame
      obtain ⟨v, w, x, hx, hall'⟩ := all_apart hdigit hread (hu.trans hspread)
      rw [hall, hall']
      refine .split hs rfl ?_ (hraised ▸ hmore x hx)
      have hfault : (Lexeme.read (d :: r)).fault? = none := by
        rw [Lexeme.read_digit hdigit, Lexeme.number_eq]
        rfl
      rw [hnumber]
      refine Token.erase_eq_iff.mpr ⟨rfl, rfl, Nat.add_sub_cancel _ _, rfl, ?_⟩
      show false = (Lexeme.read (d :: r)).fault?.isSome
      rw [hfault]
      rfl

end Token

theorem all_loosened (h : s.On source) (hgaps : s.Gaps chosen behind gaps) {u : Scanner}
    (hu : u.unread = spaced gaps s.position.offset s.unread) :
    Loosened Token.erase Token.erase behind s.all.1 u.all.1 := by
  induction s using all_induction generalizing behind u with
  | hend s hnil =>
      have hnone : ∀ i, s.position.offset ≤ i → i < s.position.offset + s.unread.length →
          gaps i = false := by
        intro i hi _
        refine Bool.eq_false_iff.mpr fun hgap => ?_
        obtain ⟨t, ht, -⟩ := (hgaps i hi).mp hgap
        obtain ⟨hmem, hsigned⟩ := Token.mem_of_mem_subtrahends ht
        rw [all_of_end hnil, List.mem_singleton] at hmem
        subst hmem
        cases hsigned
      rw [spaced_eq_self hnone] at hu
      have hnil' : u.skipLayout.unread = [] := by
        rw [← hnil]
        show u.unread.dropWhile _ = s.unread.dropWhile _
        rw [hu]
      rw [all_of_end hnil, all_of_end hnil']
      exact .same rfl .nil
  | hmore s c r hcons ih =>
      have hhere := on_skipLayout h
      have hgaps' := hgaps.skipLayout
      have hall : s.skipLayout.all.1 = s.skipLayout.place (Lexeme.read (c :: r)) ::
          (s.skipLayout.behind (Lexeme.read (c :: r))).all.1 := by
        rw [all_skipLayout, all_of_more hcons]
      -- the layout in front is the same
      have hlayout : ∀ b ∈ s.unread.takeWhile Byte.isLayout, Byte.isLayout b = true := fun b hb =>
        List.mem_takeWhile_imp hb
      have hsplit : s.unread = s.unread.takeWhile Byte.isLayout ++ c :: r := by
        rw [← hcons]
        exact List.takeWhile_append_dropWhile.symm
      rw [hsplit, spaced_append, hgaps.spaced_layout h, ← skipLayout_offset] at hu
      obtain ⟨v, hv, hvall⟩ : ∃ v : Scanner, v.unread =
          spaced gaps s.skipLayout.position.offset (c :: r) ∧ v.all = u.all :=
        ⟨_, rfl, (all_behind_layout hlayout hu).symm⟩
      have hmore : ∀ w : Scanner,
          w.unread = spaced gaps (s.skipLayout.position.offset + (Lexeme.read (c :: r)).width)
            ((c :: r).drop (Lexeme.read (c :: r)).width) →
          Loosened Token.erase Token.erase (Lexeme.read (c :: r)).kind.endsOperand
            (s.skipLayout.behind (Lexeme.read (c :: r))).all.1 w.all.1 := by
        intro w hw
        rw [← behind_offset hcons, ← behind_unread hcons] at hw
        exact ih (on_behind hhere _) (Gaps.later hcons hall hgaps') hw
      have hc := skipLayout_cons hcons
      rw [← all_skipLayout, ← hvall]
      by_cases hsigned : (behind &&
          Cursor.isSignedNumber (s.skipLayout.place (Lexeme.read (c :: r)))) = true
      · by_cases hchosen : chosen (s.skipLayout.place (Lexeme.read (c :: r))) = true
        · exact loosened_apart hc hcons hall hhere hgaps' hmore hv hsigned hchosen
        · exact loosened_same hc hcons hall hhere hgaps' hmore hv fun hboth => hchosen hboth.2
      · exact loosened_same hc hcons hall hhere hgaps' hmore hv fun hboth => hsigned hboth.1

/-- A run leaves an error for each invalid token. -/
theorem errors_all_eq_nil_iff (s : Scanner) :
    s.all.2.errors = [] ↔ s.errors = [] ∧ ∀ t ∈ s.all.1, t.isInvalid = false := by
  induction s using all_induction with
  | hend s hnil =>
      rw [all_of_end hnil]
      refine ⟨fun herrors => ⟨herrors, fun t ht => ?_⟩, fun herrors => herrors.1⟩
      rw [List.mem_singleton.mp ht]
      rfl
  | hmore s c r hcons ih =>
      have hfirst : (s.skipLayout.behind (Lexeme.read (c :: r))).errors = [] ↔
          s.errors = [] ∧ (s.skipLayout.place (Lexeme.read (c :: r))).isInvalid = false := by
        show s.errors ++ _ = [] ↔ s.errors = [] ∧ (Lexeme.read (c :: r)).fault?.isSome = false
        cases (Lexeme.read (c :: r)).fault? <;> simp
      rw [all_of_more hcons, List.forall_mem_cons, ih, hfirst, and_assoc]

end Scanner

/-- Loosening adds no invalid token and takes none away. -/
theorem Loosened.isInvalid_iff {behind : Bool} {ts us : List Token}
    (h : Loosened Token.erase Token.erase behind ts us) :
    (∀ t ∈ ts, t.isInvalid = false) ↔ ∀ u ∈ us, u.isInvalid = false := by
  induction h with
  | nil => exact Iff.rfl
  | same htu _ ih =>
      rw [List.forall_mem_cons, List.forall_mem_cons, (Token.erase_eq_iff.mp htu).2.2.2.2]
      exact and_congr_right fun _ => ih
  | @split t minus number ts us _ hminus hnumber _ ih =>
      have hvalid : minus.isInvalid = false := (Token.erase_eq_iff.mp hminus).2.2.2.2.symm
      have hsame : t.isInvalid = number.isInvalid := (Token.erase_eq_iff.mp hnumber).2.2.2.2
      rw [List.forall_mem_cons, List.forall_mem_cons, List.forall_mem_cons, and_iff_right hvalid,
        hsame]
      exact and_congr_right fun _ => ih

/-! ## Programs -/

theorem scan_loosened (chosen : Token → Bool) (source : Text) :
    Loosened Token.erase Token.erase false (Token.scan source).1
      (Token.scan (loosened chosen source)).1 := by
  have hgaps : (Scanner.ofSource source).Gaps chosen false
      (Token.minusGaps chosen (Token.scan source).1) := by
    intro i _
    rw [Token.minusGaps, List.any_eq_true]
    simp only [Bool.and_eq_true, beq_iff_eq]
    rfl
  exact Scanner.all_loosened (Scanner.on_ofSource source) hgaps rfl

/-- A space behind the minus of signed numbers right behind an operand, of any of
them, makes no difference: the source scans and parses without errors just when it
did before, and then to the same tree but for the places of its tokens. In that
tree the minus is an operator, since it is a token of its own in the one source, and
the canonical texts are the same. -/
theorem parse_subtraction (chosen : Token → Bool) (source : Text) :
    let loose := loosened chosen source
    ((Token.scan source).2 = [] ↔ (Token.scan loose).2 = []) ∧
      ((parse (Token.scan source).1).errors = [] ↔ (parse (Token.scan loose).1).errors = []) ∧
      ((parse (Token.scan source).1).errors = [] →
        (parse (Token.scan source).1).program.relabel Token.erase =
          (parse (Token.scan loose).1).program.relabel Token.erase ∧
        (parse (Token.scan source).1).program.canonical =
          (parse (Token.scan loose).1).program.canonical) := by
  intro loose
  have htokens := scan_loosened chosen source
  obtain ⟨herrors, hprogram⟩ := parse_loosened Token.alike_erase (Token.endsOnce_scan source)
    (Token.endsOnce_scan loose) htokens
  refine ⟨?_, herrors, fun hnone => ⟨hprogram hnone, ?_⟩⟩
  · have hlexical : ∀ text : Text,
        (Token.scan text).2 = [] ↔ ∀ t ∈ (Token.scan text).1, t.isInvalid = false := fun text =>
      (Scanner.errors_all_eq_nil_iff (.ofSource text)).trans (and_iff_right rfl)
    rw [hlexical, hlexical, htokens.isInvalid_iff]
  · have hkeeps : ∀ t : Token, t.erase.lexeme = t.lexeme := fun _ => rfl
    rw [← Program.canonical_relabel hkeeps, hprogram hnone, Program.canonical_relabel hkeeps]

/-- Minus signs of two levels, and one that stays with its number. -/
theorem parse_subtraction_levels :
    let source := text "a-1*2-f(-3)-4"
    loosened (fun _ => true) source = text "a- 1*2-f(-3)- 4" ∧
      (parse (Token.scan (text "a- 1*2-f(-3)- 4")).1).program.canonical =
        text "(((a - (1 * 2)) - f(-3)) - 4);" ∧
      (parse (Token.scan source).1).program.canonical =
        (parse (Token.scan (text "a- 1*2-f(-3)- 4")).1).program.canonical := by
  intro source
  have hloose : loosened (fun _ => true) source = text "a- 1*2-f(-3)- 4" := by decide +kernel
  obtain ⟨-, -, hprogram⟩ := parse_subtraction (fun _ => true) source
  rw [hloose] at hprogram
  exact ⟨hloose, by decide +kernel, (hprogram (by decide +kernel)).2⟩

end Scriptlet
