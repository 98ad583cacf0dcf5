import Mathlib.Computability.Language
import Scriptlet.Proofs.Text.Utf8
import Scriptlet.Proofs.Token.Lexing

/-!
# Every token is the longest of its class

The classes of tokens as regular languages and by tables, and a lexer that is
told in their terms: `Munch` says which token stands at the head of a text, and
`Munches` which tokens a whole text consists of. It has no scanner in it and no
state. `scan_iff_munches` shows that the scanner finds these tokens and no
others, in every text.

For each class there is one lemma that says what is taken by it: the longest
word or number (`longest_word`, `longest_number`), the first quote that closes
a string literal (`closes_first`, `closes_none`), the symbols (`symbolAt?_double`
and its siblings) and the encoded character (`take_headWidth`). `munch_read` and
`Munch.read_eq` put them together for one token, in both directions.
-/

namespace Scriptlet

open scoped Computability

namespace Munch

/-! ## Languages -/

/-- The texts of one byte from a class. -/
def oneOf (p : UInt8 → Bool) : Language UInt8 := {w | ∃ c, p c = true ∧ w = [c]}

def letter : Language UInt8 := oneOf Byte.isLetter

def digit : Language UInt8 := oneOf Byte.isDigit

/-- The text of this one byte. -/
def only (c : UInt8) : Language UInt8 := oneOf (· == c)

/-- A letter or underscore, and letters, underscores and digits behind it. -/
def words : Language UInt8 := letter * (letter + digit)∗

/-- A digit, with or without an underscore in front. -/
def group : Language UInt8 := (1 + only Byte.underscore) * digit

/-- Digits, with single underscores between them. -/
def digits : Language UInt8 := digit * group∗

/-- Digits with or without a minus, and with or without a decimal part. -/
def numbers : Language UInt8 :=
  (1 + only Byte.minus) * digits * (1 + only Byte.dot * digits)

/-- A prefix of a text that no other one in the language is longer than. -/
structure Longest (L : Language UInt8) (s w : Text) : Prop where
  heads : w <+: s
  mem : w ∈ L
  longest : ∀ v, v <+: s → v ∈ L → v.length ≤ w.length

/-- Prefixes of one text are equal when neither is longer. -/
theorem eq_of_heads {s v w : Text} (hv : v <+: s) (hw : w <+: s) (hle : v.length ≤ w.length)
    (hge : w.length ≤ v.length) : v = w :=
  (List.prefix_of_prefix_length_le hv hw hle).eq_of_length (Nat.le_antisymm hle hge)

theorem Longest.unique {L : Language UInt8} {s v w : Text} (hv : Longest L s v)
    (hw : Longest L s w) : v = w :=
  eq_of_heads hv.heads hw.heads (hw.longest v hv.heads hv.mem) (hv.longest w hw.heads hw.mem)

/-! ## String literals -/

/-- The backslashes at the end of a text. -/
def backslashes (s : Text) : Nat := (s.reverse.takeWhile (· == Byte.backslash)).length

/-- Behind `body` stands a quote that no odd number of backslashes keeps from
closing. -/
def Closes (s body : Text) : Prop :=
  body ++ [Byte.quote] <+: s ∧ backslashes body % 2 = 0

/-! ## One token -/

def StartsWord (s : Text) : Prop := ∃ c, Byte.isLetter c = true ∧ [c] <+: s

def StartsNumber (s : Text) : Prop :=
  ∃ d, Byte.isDigit d = true ∧ ([d] <+: s ∨ [Byte.minus, d] <+: s)

/-- Neither a word nor a number nor a string literal starts here. -/
def StartsOther (s : Text) : Prop :=
  ¬ StartsWord s ∧ ¬ StartsNumber s ∧ ¬ [Byte.quote] <+: s

/-- The kind of a word by the table of keywords. -/
def Named (k : Kind) (w : Text) : Prop :=
  k ∈ Kind.keywords ∧ k.name = w ∨ k = .ident ∧ ∀ k' ∈ Kind.keywords, k'.name ≠ w

/-- No symbol of the table stands at the head. -/
def NoneOf (table : List Kind) (s : Text) : Prop := ∀ k ∈ table, ¬ k.name <+: s

end Munch

open Munch in
/-- `Munch s k w taken`: at the head of `s` stands a token of kind `k` with the
lexeme `w`, spelt by the bytes `taken`. -/
inductive Munch : Text → Kind → Text → Text → Prop where
  | word {s w : Text} {k : Kind} : StartsWord s → Longest words s w → Named k w →
      Munch s k w w
  | number {s w : Text} : StartsNumber s → Longest numbers s w →
      Munch s (if Byte.dot ∈ w then .float else .integer) w w
  | string {s body : Text} : Closes s body →
      (∀ other, Closes s other → body.length ≤ other.length) →
      Munch (Byte.quote :: s) .string body (Byte.quote :: (body ++ [Byte.quote]))
  | unclosed {s : Text} : (∀ body, ¬ Closes s body) →
      Munch (Byte.quote :: s) .illegal s (Byte.quote :: s)
  | double {s : Text} {k : Kind} : StartsOther s → k ∈ Kind.doubles → k.name <+: s →
      Munch s k k.name k.name
  | single {s : Text} {k : Kind} : StartsOther s → NoneOf Kind.doubles s → k ∈ Kind.singles →
      k.name <+: s → Munch s k k.name k.name
  | character {s : Text} {ch : Char} : StartsOther s → NoneOf Kind.doubles s →
      NoneOf Kind.singles s → String.utf8EncodeChar ch <+: s →
      Munch s .illegal (String.utf8EncodeChar ch) (String.utf8EncodeChar ch)
  | stray {c : UInt8} {s : Text} : StartsOther (c :: s) → NoneOf Kind.doubles (c :: s) →
      NoneOf Kind.singles (c :: s) → (∀ ch, ¬ String.utf8EncodeChar ch <+: c :: s) →
      Munch (c :: s) .illegal [c] [c]

/-- The kinds and lexemes of a text, with one end token behind them. -/
inductive Munches : Text → List (Kind × Text) → Prop where
  | done : Munches [] [(.eof, [])]
  | layout {c : UInt8} {s : Text} {ts : List (Kind × Text)} : Byte.isLayout c = true →
      Munches s ts → Munches (c :: s) ts
  | token {c : UInt8} {s w taken rest : Text} {k : Kind} {ts : List (Kind × Text)} :
      Byte.isLayout c = false → Munch (c :: s) k w taken → c :: s = taken ++ rest →
      Munches rest ts → Munches (c :: s) ((k, w) :: ts)

namespace Munch

open Lexeme

/-! ## Words -/

theorem mem_oneOf {p : UInt8 → Bool} {w : Text} : w ∈ oneOf p ↔ ∃ c, p c = true ∧ w = [c] :=
  Iff.rfl

theorem singleton_mem_oneOf {p : UInt8 → Bool} {c : UInt8} (h : p c = true) : [c] ∈ oneOf p :=
  ⟨c, h, rfl⟩

theorem mem_only {c : UInt8} {w : Text} : w ∈ only c ↔ w = [c] := by
  simp [only, mem_oneOf]

/-- A byte that may be left out. -/
theorem mem_optional {c : UInt8} {w : Text} : w ∈ 1 + only c ↔ w = [] ∨ w = [c] := by
  rw [Language.mem_add, Language.mem_one, mem_only]

theorem letter_add_digit :
    letter + digit = oneOf fun c => Byte.isLetter c || Byte.isDigit c := by
  ext w
  simp only [letter, digit, Language.mem_add, mem_oneOf, Bool.or_eq_true, or_and_right, exists_or]

theorem append_mem_kstar {L : Language UInt8} {v w : Text} (hv : v ∈ L) (hw : w ∈ L∗) :
    v ++ w ∈ L∗ := by
  obtain ⟨parts, rfl, hparts⟩ := Language.mem_kstar.mp hw
  exact Language.mem_kstar.mpr ⟨v :: parts, rfl, List.forall_mem_cons.mpr ⟨hv, hparts⟩⟩

theorem mem_kstar_oneOf {p : UInt8 → Bool} {w : Text} :
    w ∈ (oneOf p)∗ ↔ ∀ c ∈ w, p c = true := by
  constructor
  · intro hw c hc
    obtain ⟨parts, rfl, hparts⟩ := Language.mem_kstar.mp hw
    obtain ⟨part, hpart, hmem⟩ := List.mem_flatten.mp hc
    obtain ⟨d, hd, rfl⟩ := hparts part hpart
    exact List.mem_singleton.mp hmem ▸ hd
  · intro hall
    induction w with
    | nil => exact Language.nil_mem_kstar _
    | cons c w ih =>
        rw [List.forall_mem_cons] at hall
        exact append_mem_kstar (singleton_mem_oneOf hall.1) (ih hall.2)

theorem mem_words {w : Text} : w ∈ words ↔ ∃ c u, Byte.isLetter c = true ∧
    (∀ d ∈ u, (Byte.isLetter d || Byte.isDigit d) = true) ∧ w = c :: u := by
  rw [words, letter_add_digit, Language.mem_mul]
  constructor
  · rintro ⟨_, ⟨c, hc, rfl⟩, u, hu, rfl⟩
    exact ⟨c, u, hc, mem_kstar_oneOf.mp hu, rfl⟩
  · rintro ⟨c, u, hc, hu, rfl⟩
    exact ⟨[c], ⟨c, hc, rfl⟩, u, mem_kstar_oneOf.mpr hu, rfl⟩

theorem longest_word {c : UInt8} (hc : Byte.isLetter c = true) (s : Text) :
    Longest words (c :: s) (Lexeme.word (c :: s)).content := by
  rw [word_content]
  refine ⟨List.takeWhile_prefix _, ?_, ?_⟩
  · rw [List.takeWhile_cons_of_pos (by simp [hc])]
    exact mem_words.mpr ⟨c, _, hc, List.all_eq_true.mp List.all_takeWhile, rfl⟩
  · rintro v ⟨rest, hrest⟩ hv
    obtain ⟨d, u, hd, hu, rfl⟩ := mem_words.mp hv
    have hall : ∀ b ∈ d :: u, (Byte.isLetter b || Byte.isDigit b) = true :=
      List.forall_mem_cons.mpr ⟨by simp [hd], hu⟩
    rw [← hrest, List.takeWhile_append_of_pos hall, List.length_append]
    exact Nat.le_add_right _ _

theorem named_iff {k : Kind} {w : Text} : Named k w ↔ Kind.ofWord w = k := by
  have hdistinct : ∀ k ∈ Kind.keywords, ∀ k' ∈ Kind.keywords, k.name = k'.name → k = k' := by
    decide
  have hident : Kind.ident ∉ Kind.keywords := by decide
  unfold Kind.ofWord Named
  cases hfind : Kind.keywords.find? (·.name == w) with
  | none =>
      have hnone : ∀ k' ∈ Kind.keywords, k'.name ≠ w := by
        simpa using List.find?_eq_none.mp hfind
      constructor
      · rintro (⟨hk, hname⟩ | ⟨rfl, -⟩)
        · exact absurd hname (hnone k hk)
        · rfl
      · rintro rfl
        exact Or.inr ⟨rfl, hnone⟩
  | some k' =>
      have hk' := List.mem_of_find?_eq_some hfind
      have hname' : k'.name = w := by simpa using List.find?_some hfind
      constructor
      · rintro (⟨hk, hname⟩ | ⟨-, hnone⟩)
        · exact hdistinct k' hk' k hk (hname'.trans hname.symm)
        · exact absurd hname' (hnone k' hk')
      · rintro rfl
        exact Or.inl ⟨hk', hname'⟩

/-! ## Numbers -/

theorem mem_group {w : Text} : w ∈ group ↔
    ∃ d, Byte.isDigit d = true ∧ (w = [d] ∨ w = [Byte.underscore, d]) := by
  rw [group, Language.mem_mul]
  constructor
  · rintro ⟨u, hu, _, ⟨d, hd, rfl⟩, rfl⟩
    rcases mem_optional.mp hu with rfl | rfl
    · exact ⟨d, hd, Or.inl rfl⟩
    · exact ⟨d, hd, Or.inr rfl⟩
  · rintro ⟨d, hd, rfl | rfl⟩
    · exact ⟨[], mem_optional.mpr (Or.inl rfl), [d], ⟨d, hd, rfl⟩, rfl⟩
    · exact ⟨[Byte.underscore], mem_optional.mpr (Or.inr rfl), [d], ⟨d, hd, rfl⟩, rfl⟩

theorem mem_digits {w : Text} : w ∈ digits ↔
    ∃ d u, Byte.isDigit d = true ∧ u ∈ group∗ ∧ w = d :: u := by
  rw [digits, Language.mem_mul]
  constructor
  · rintro ⟨_, ⟨d, hd, rfl⟩, u, hu, rfl⟩
    exact ⟨d, u, hd, hu, rfl⟩
  · rintro ⟨d, u, hd, hu, rfl⟩
    exact ⟨[d], ⟨d, hd, rfl⟩, u, hu, rfl⟩

/-- A run of digits is made of groups; so is one behind an underscore when it
starts with a digit. -/
theorem digitRun_mem : ∀ s : Text, digitRun s ∈ group∗ ∧
    (startsWithDigit s = true → Byte.underscore :: digitRun s ∈ group∗)
  | [] => ⟨Language.nil_mem_kstar _, nofun⟩
  | c :: s => by
      obtain ⟨hrun, hbehind⟩ := digitRun_mem s
      by_cases hc : Byte.isDigit c = true
      · rw [digitRun, if_pos (by simp [hc])]
        exact ⟨append_mem_kstar (mem_group.mpr ⟨c, hc, Or.inl rfl⟩) hrun,
          fun _ => append_mem_kstar (mem_group.mpr ⟨c, hc, Or.inr rfl⟩) hrun⟩
      · refine ⟨?_, fun h => absurd h hc⟩
        rw [digitRun]
        split
        · rename_i hunder
          obtain ⟨hunder, hs⟩ : c = Byte.underscore ∧ startsWithDigit s = true := by
            simpa [hc] using hunder
          rw [hunder]
          exact hbehind hs
        · exact Language.nil_mem_kstar _

theorem digitRun_mem_digits {s : Text} (h : startsWithDigit s = true) : digitRun s ∈ digits := by
  cases s with
  | nil => cases h
  | cons c s =>
      have hc : Byte.isDigit c = true := h
      rw [digitRun, if_pos (by simp [hc])]
      exact mem_digits.mpr ⟨c, _, hc, (digitRun_mem s).1, rfl⟩

/-- Groups at the head of a text belong to its run of digits. -/
theorem groups_prefix_digitRun {v s : Text} (hv : v ∈ group∗) (hs : v <+: s) :
    v <+: digitRun s := by
  obtain ⟨parts, rfl, hparts⟩ := Language.mem_kstar.mp hv
  clear hv
  induction parts generalizing s with
  | nil => exact List.nil_prefix
  | cons part parts ih =>
      rw [List.forall_mem_cons] at hparts
      obtain ⟨rest, rfl⟩ := hs
      have hmore := ih hparts.2 (List.prefix_append _ rest)
      obtain ⟨d, hd, rfl | rfl⟩ := mem_group.mp hparts.1
      · simp only [List.flatten_cons, List.cons_append, List.nil_append]
        rw [digitRun, if_pos (by simp [hd])]
        exact List.cons_prefix_cons.mpr ⟨rfl, hmore⟩
      · simp only [List.flatten_cons, List.cons_append, List.nil_append]
        rw [digitRun, if_pos (by simp [startsWithDigit, hd]), digitRun, if_pos (by simp [hd])]
        exact List.cons_prefix_cons.mpr ⟨rfl, List.cons_prefix_cons.mpr ⟨rfl, hmore⟩⟩

theorem digits_prefix_digitRun {v s : Text} (hv : v ∈ digits) (hs : v <+: s) :
    startsWithDigit s = true ∧ v <+: digitRun s := by
  obtain ⟨d, u, hd, hu, rfl⟩ := mem_digits.mp hv
  refine ⟨?_, groups_prefix_digitRun (append_mem_kstar (mem_group.mpr ⟨d, hd, Or.inl rfl⟩) hu) hs⟩
  obtain ⟨rest, rfl⟩ := hs
  exact hd

theorem mem_digitRun {c : UInt8} : ∀ {s : Text}, c ∈ digitRun s →
    Byte.isDigit c = true ∨ c = Byte.underscore
  | [], h => absurd h List.not_mem_nil
  | d :: s, h => by
      rw [digitRun] at h
      split at h
      · rename_i hd
        rcases List.mem_cons.mp h with rfl | h
        · rcases (Bool.or_eq_true _ _).mp hd with hd | hd
          · exact Or.inl hd
          · exact Or.inr (by simpa using ((Bool.and_eq_true _ _).mp hd).1)
        · exact mem_digitRun h
      · exact absurd h List.not_mem_nil

theorem dot_not_mem_digitRun (s : Text) : Byte.dot ∉ digitRun s := fun h =>
  (mem_digitRun h).elim (by decide) (by decide)

/-- Digits in front of a decimal point are the whole run. -/
theorem eq_digitRun_of_dot {v s es : Text} (hv : v ∈ digits) (hs : v ++ Byte.dot :: es <+: s) :
    v = digitRun s := by
  have hpre := (digits_prefix_digitRun hv ((List.prefix_append v _).trans hs)).2
  obtain ⟨_ | ⟨c, more⟩, hmore⟩ := hpre
  · rw [← hmore, List.append_nil]
  · -- the run goes on where the point stands
    exfalso
    have hlonger : v ++ c :: more <+: s := hmore ▸ digitRun_isPrefix s
    obtain ⟨rest, rfl⟩ := hs
    rw [List.append_assoc, List.prefix_append_right_inj] at hlonger
    have hc : c = Byte.dot := (List.cons_prefix_cons.mp hlonger).1
    refine dot_not_mem_digitRun _ (hmore ▸ List.mem_append_right v ?_)
    rw [hc]
    exact List.mem_cons_self

/-- The sign and the digits of a number. -/
theorem wholePart_signed {sign t : Text} (hsign : sign ∈ 1 + only Byte.minus)
    (ht : startsWithDigit t = true) : wholePart (sign ++ t) = sign ++ digitRun t := by
  rcases mem_optional.mp hsign with rfl | rfl
  · rw [List.nil_append, List.nil_append]
    cases t with
    | nil => cases ht
    | cons d t =>
        have hd : Byte.isDigit d = true := ht
        rw [wholePart_cons (by simp [hd]), digitRun, if_pos (by simp [hd])]
  · rfl

theorem fractionOf_signed {sign t : Text} (hsign : sign ∈ 1 + only Byte.minus)
    (ht : startsWithDigit t = true) :
    fractionOf (sign ++ t) = fractionPart (t.drop (digitRun t).length) := by
  rw [fractionOf, wholePart_signed hsign ht, List.length_append, ← List.drop_drop,
    List.drop_left]

theorem fractionPart_eq (s : Text) : fractionPart s = [] ∨
    ∃ t, s = Byte.dot :: t ∧ startsWithDigit t = true ∧
      fractionPart s = Byte.dot :: digitRun t := by
  cases s with
  | nil => exact Or.inl rfl
  | cons c t =>
      rw [fractionPart]
      split
      · rename_i hc
        obtain ⟨rfl, ht⟩ : c = Byte.dot ∧ startsWithDigit t = true := by simpa using hc
        exact Or.inr ⟨t, rfl, ht, rfl⟩
      · exact Or.inl rfl

theorem startsNumber_iff {s : Text} : StartsNumber s ↔
    ∃ sign t, sign ∈ 1 + only Byte.minus ∧ startsWithDigit t = true ∧ s = sign ++ t := by
  constructor
  · rintro ⟨d, hd, ⟨t, rfl⟩ | ⟨t, rfl⟩⟩
    · exact ⟨[], d :: t, mem_optional.mpr (Or.inl rfl), hd, rfl⟩
    · exact ⟨[Byte.minus], d :: t, mem_optional.mpr (Or.inr rfl), hd, rfl⟩
  · rintro ⟨sign, _ | ⟨d, t⟩, hsign, ht, rfl⟩
    · cases ht
    · rcases mem_optional.mp hsign with rfl | rfl
      · exact ⟨d, ht, Or.inl ⟨t, rfl⟩⟩
      · exact ⟨d, ht, Or.inr ⟨t, rfl⟩⟩

/-- Digits with or without a decimal part go no further than the runs that are
taken. -/
theorem unsigned_length_le {ds fraction t : Text} (hds : ds ∈ digits)
    (hfraction : fraction ∈ 1 + only Byte.dot * digits) (ht : ds ++ fraction <+: t) :
    (ds ++ fraction).length ≤
      (digitRun t ++ fractionPart (t.drop (digitRun t).length)).length := by
  rcases (Language.mem_add _ _ _).mp hfraction with hnone | hsome
  · rw [(Language.mem_one _).mp hnone, List.append_nil] at ht ⊢
    have hle := (digits_prefix_digitRun hds ht).2.length_le
    rw [List.length_append]
    omega
  · obtain ⟨point, hpoint, es, hes, rfl⟩ := Language.mem_mul.mp hsome
    rw [mem_only.mp hpoint, List.singleton_append] at ht ⊢
    have hrun : digitRun t = ds := (eq_digitRun_of_dot hds ht).symm
    obtain ⟨rest, rfl⟩ := ht
    obtain ⟨hdigit, hpre⟩ := digits_prefix_digitRun hes (List.prefix_append es rest)
    have hdrop : (ds ++ Byte.dot :: es ++ rest).drop ds.length = Byte.dot :: (es ++ rest) := by
      rw [List.append_assoc, List.drop_left, List.cons_append]
    have hpart : fractionPart (Byte.dot :: (es ++ rest)) = Byte.dot :: digitRun (es ++ rest) := by
      rw [fractionPart, if_pos (by simp [hdigit])]
    rw [hrun, hdrop, hpart, List.length_append, List.length_append, List.length_cons,
      List.length_cons]
    have hle := hpre.length_le
    omega

theorem longest_number {s : Text} (hs : StartsNumber s) :
    Longest numbers s (wholePart s ++ fractionOf s) := by
  refine ⟨numeral_isPrefix s, ?_, ?_⟩
  · obtain ⟨sign, t, hsign, ht, rfl⟩ := startsNumber_iff.mp hs
    rw [wholePart_signed hsign ht, fractionOf_signed hsign ht]
    refine Language.append_mem_mul
      (Language.append_mem_mul hsign (digitRun_mem_digits ht)) ?_
    rcases fractionPart_eq (t.drop (digitRun t).length) with hnone | ⟨u, -, hu, hsome⟩
    · rw [hnone]
      exact Or.inl Language.nil_mem_one
    · rw [hsome]
      exact Or.inr (Language.append_mem_mul (mem_only.mpr rfl) (digitRun_mem_digits hu))
  · rintro v ⟨rest, rfl⟩ hv
    obtain ⟨_, hsigned, fraction, hfraction, rfl⟩ := Language.mem_mul.mp hv
    obtain ⟨sign, hsign, ds, hds, rfl⟩ := Language.mem_mul.mp hsigned
    -- whatever the number is, its sign is that of the text
    have hsplit : sign ++ ds ++ fraction ++ rest = sign ++ (ds ++ fraction ++ rest) := by simp
    have hdigit : startsWithDigit (ds ++ fraction ++ rest) = true :=
      (digits_prefix_digitRun hds ⟨fraction ++ rest, by simp⟩).1
    have hle := unsigned_length_le hds hfraction (List.prefix_append (ds ++ fraction) rest)
    rw [hsplit, wholePart_signed hsign hdigit, fractionOf_signed hsign hdigit]
    simp only [List.length_append] at hle ⊢
    omega

/-- A number has a point in it just when it has a decimal part. -/
theorem dot_mem_number {s : Text} (hs : StartsNumber s) :
    Byte.dot ∈ wholePart s ++ fractionOf s ↔ fractionOf s ≠ [] := by
  obtain ⟨sign, t, hsign, ht, rfl⟩ := startsNumber_iff.mp hs
  have hwhole : Byte.dot ∉ wholePart (sign ++ t) := by
    rw [wholePart_signed hsign ht, List.mem_append, not_or]
    refine ⟨?_, dot_not_mem_digitRun t⟩
    rcases mem_optional.mp hsign with rfl | rfl
    · exact List.not_mem_nil
    · decide
  rw [List.mem_append, or_iff_right hwhole, fractionOf]
  rcases fractionPart_eq ((sign ++ t).drop (wholePart (sign ++ t)).length)
    with hnone | ⟨u, -, -, hsome⟩
  · simp [hnone]
  · simp [hsome]

theorem number_content (s : Text) : (Lexeme.number s).content = wholePart s ++ fractionOf s := by
  rw [number_eq]
  rfl

theorem number_kind {s : Text} (hs : StartsNumber s) : (Lexeme.number s).kind =
    if Byte.dot ∈ wholePart s ++ fractionOf s then .float else .integer := by
  rw [number_eq]
  by_cases hempty : fractionOf s = []
  · rw [if_neg (fun h => (dot_mem_number hs).mp h hempty)]
    simp [hempty, plain]
  · rw [if_pos ((dot_mem_number hs).mpr hempty)]
    simp [hempty, plain]

/-! ## String literals -/

theorem backslashes_le (s : Text) : backslashes s ≤ s.length := by
  have hle := (List.takeWhile_prefix (p := (· == Byte.backslash)) (l := s.reverse)).length_le
  rwa [List.length_reverse] at hle

/-- A byte in front counts when it is a backslash and so is all behind it. -/
theorem backslashes_cons (c : UInt8) (s : Text) : backslashes (c :: s) =
    if c = Byte.backslash ∧ backslashes s = s.length then s.length + 1 else backslashes s := by
  unfold backslashes
  rw [List.reverse_cons, List.takeWhile_append, List.length_reverse]
  by_cases hall : (s.reverse.takeWhile (· == Byte.backslash)).length = s.length
  · by_cases hc : c = Byte.backslash
    · simp [hall, hc]
    · simp [hall, hc]
  · simp [hall]

/-- A backslash and the byte behind it make no difference to the parity. -/
theorem backslashes_pair (d : UInt8) (s : Text) :
    backslashes (Byte.backslash :: d :: s) % 2 = backslashes s % 2 := by
  have hle := backslashes_le s
  rw [backslashes_cons, backslashes_cons d, List.length_cons]
  by_cases hall : d = Byte.backslash ∧ backslashes s = s.length
  · rw [if_pos hall, if_pos ⟨rfl, rfl⟩]
    omega
  · rw [if_neg hall, if_neg (by omega)]

theorem not_closes_nil (body : Text) : ¬ Closes [] body := fun h => by
  have hle := h.1.length_le
  simp at hle

theorem closes_cons_iff {c : UInt8} (hquote : c ≠ Byte.quote) (hslash : c ≠ Byte.backslash)
    {s body : Text} : Closes (c :: s) body ↔ ∃ inner, body = c :: inner ∧ Closes s inner := by
  cases body with
  | nil =>
      constructor
      · intro h
        exact absurd (List.cons_prefix_cons.mp h.1).1.symm hquote
      · rintro ⟨inner, hinner, -⟩
        cases hinner
  | cons d body =>
      have hparity : c = d → backslashes (d :: body) = backslashes body := by
        rintro rfl
        rw [backslashes_cons, if_neg (fun h => hslash h.1)]
      unfold Closes
      rw [List.cons_append, List.cons_prefix_cons]
      constructor
      · rintro ⟨⟨rfl, hpre⟩, heven⟩
        exact ⟨body, rfl, hpre, hparity rfl ▸ heven⟩
      · rintro ⟨inner, hinner, hpre, heven⟩
        obtain ⟨rfl, rfl⟩ := List.cons.inj hinner
        exact ⟨⟨rfl, hpre⟩, (hparity rfl).symm ▸ heven⟩

theorem closes_pair_iff {d : UInt8} {s body : Text} : Closes (Byte.backslash :: d :: s) body ↔
    ∃ inner, body = Byte.backslash :: d :: inner ∧ Closes s inner := by
  constructor
  · rintro ⟨hpre, heven⟩
    rcases body with _ | ⟨c, _ | ⟨e, inner⟩⟩
    · exact absurd (List.cons_prefix_cons.mp hpre).1 (by decide)
    · -- one backslash keeps the quote right behind it from closing
      obtain rfl := (List.cons_prefix_cons.mp hpre).1
      exact absurd heven (by decide)
    · rw [List.cons_append, List.cons_append, List.cons_prefix_cons, List.cons_prefix_cons] at hpre
      obtain ⟨rfl, rfl, hpre⟩ := hpre
      exact ⟨inner, rfl, hpre, backslashes_pair e inner ▸ heven⟩
  · rintro ⟨inner, rfl, hpre, heven⟩
    refine ⟨?_, (backslashes_pair d inner).trans heven⟩
    exact List.cons_prefix_cons.mpr ⟨rfl, List.cons_prefix_cons.mpr ⟨rfl, hpre⟩⟩

/-- The body of a literal goes up to the first quote that closes it. -/
theorem closes_first {s body : Text} (h : stringBody? s = some body) :
    Closes s body ∧ ∀ other, Closes s other → body.length ≤ other.length := by
  fun_induction stringBody? s generalizing body with
  | case1 => cases h
  | case2 s =>
      cases h
      exact ⟨⟨⟨s, rfl⟩, rfl⟩, fun _ _ => Nat.zero_le _⟩
  | case3 => cases h
  | case4 d r _ ih =>
      obtain ⟨inner, hinner, rfl⟩ := Option.map_eq_some_iff.mp h
      obtain ⟨hcloses, hfirst⟩ := ih hinner
      refine ⟨closes_pair_iff.mpr ⟨inner, rfl, hcloses⟩, fun other hother => ?_⟩
      obtain ⟨more, rfl, hmore⟩ := closes_pair_iff.mp hother
      exact Nat.succ_le_succ (Nat.succ_le_succ (hfirst more hmore))
  | case5 c s hquote hslash ih =>
      obtain ⟨inner, hinner, rfl⟩ := Option.map_eq_some_iff.mp h
      obtain ⟨hcloses, hfirst⟩ := ih hinner
      refine ⟨(closes_cons_iff hquote hslash).mpr ⟨inner, rfl, hcloses⟩, fun other hother => ?_⟩
      obtain ⟨more, rfl, hmore⟩ := (closes_cons_iff hquote hslash).mp hother
      exact Nat.succ_le_succ (hfirst more hmore)

theorem closes_none {s : Text} (h : stringBody? s = none) (body : Text) : ¬ Closes s body := by
  fun_induction stringBody? s generalizing body with
  | case1 => exact not_closes_nil body
  | case2 => cases h
  | case3 =>
      intro hcloses
      cases body with
      | nil => exact absurd (List.cons_prefix_cons.mp hcloses.1).1 (by decide)
      | cons c body =>
          have hle := hcloses.1.length_le
          simp at hle
  | case4 d r _ ih =>
      intro hcloses
      obtain ⟨inner, -, hinner⟩ := closes_pair_iff.mp hcloses
      exact ih (Option.map_eq_none_iff.mp h) inner hinner
  | case5 c s hquote hslash ih =>
      intro hcloses
      obtain ⟨inner, -, hinner⟩ := (closes_cons_iff hquote hslash).mp hcloses
      exact ih (Option.map_eq_none_iff.mp h) inner hinner

theorem stringBody?_of_closes {s body : Text} (hcloses : Closes s body)
    (hfirst : ∀ other, Closes s other → body.length ≤ other.length) :
    stringBody? s = some body := by
  cases hbody : stringBody? s with
  | none => exact absurd hcloses (closes_none hbody body)
  | some body' =>
      obtain ⟨hcloses', hfirst'⟩ := closes_first hbody
      have hpre := (List.prefix_append body [Byte.quote]).trans hcloses.1
      have hpre' := (List.prefix_append body' [Byte.quote]).trans hcloses'.1
      rw [eq_of_heads hpre hpre' (hfirst body' hcloses') (hfirst' body hcloses)]

/-! ## Symbols and characters -/

theorem symbolAt?_none {s : Text} (hdoubles : NoneOf Kind.doubles s)
    (hsingles : NoneOf Kind.singles s) : Kind.symbolAt? s = none := by
  refine List.find?_eq_none.mpr fun k hk hpre => ?_
  rcases List.mem_append.mp hk with hk | hk
  · exact hdoubles k hk (List.isPrefixOf_iff_prefix.mp hpre)
  · exact hsingles k hk (List.isPrefixOf_iff_prefix.mp hpre)

/-- The bytes at the head of a text that are taken for one character. -/
theorem take_headWidth {s : Text} {ch : Char} (h : String.utf8EncodeChar ch <+: s) :
    s.take (Utf8.headWidth s) = String.utf8EncodeChar ch := by
  rw [Utf8.headWidth, Utf8.decode?_eq_some_iff.mpr ⟨ch, rfl, h, rfl⟩]
  exact (List.prefix_iff_eq_take.mp h).symm

theorem take_headWidth_stray {c : UInt8} {s : Text}
    (h : ∀ ch, ¬ String.utf8EncodeChar ch <+: c :: s) :
    (c :: s).take (Utf8.headWidth (c :: s)) = [c] := by
  have hnone : Utf8.decode? (c :: s) = none := by
    refine Option.eq_none_iff_forall_not_mem.mpr fun ⟨n, width⟩ hmem => ?_
    obtain ⟨ch, -, hpre, -⟩ := Utf8.decode?_eq_some_iff.mp hmem
    exact h ch hpre
  rw [Utf8.headWidth, hnone]
  simp

/-! ## One token -/

variable {c : UInt8} {s : Text}

theorem startsWord_cons : StartsWord (c :: s) ↔ Byte.isLetter c = true := by
  constructor
  · rintro ⟨d, hd, hpre⟩
    exact (List.cons_prefix_cons.mp hpre).1 ▸ hd
  · intro hc
    exact ⟨c, hc, s, rfl⟩

theorem startsNumber_cons : StartsNumber (c :: s) ↔
    (Byte.isDigit c || (c == Byte.minus && startsWithDigit s)) = true := by
  rw [Bool.or_eq_true, Bool.and_eq_true, beq_iff_eq]
  constructor
  · rintro ⟨d, hd, hpre | hpre⟩
    · exact Or.inl ((List.cons_prefix_cons.mp hpre).1 ▸ hd)
    · obtain ⟨hminus, rest, rfl⟩ := List.cons_prefix_cons.mp hpre
      exact Or.inr ⟨hminus.symm, hd⟩
  · rintro (hc | ⟨rfl, hs⟩)
    · exact ⟨c, hc, Or.inl ⟨s, rfl⟩⟩
    · cases s with
      | nil => cases hs
      | cons d r => exact ⟨d, hs, Or.inr ⟨r, rfl⟩⟩

theorem not_isLetter_of_startsNumber (h : StartsNumber (c :: s)) : Byte.isLetter c = false := by
  obtain ⟨d, hd, hpre | hpre⟩ := h
  · exact Byte.not_isLetter_of_isDigit ((List.cons_prefix_cons.mp hpre).1 ▸ hd)
  · rw [← (List.cons_prefix_cons.mp hpre).1]
    rfl

theorem startsOther_cons : StartsOther (c :: s) ↔ Byte.isLetter c = false ∧
    (Byte.isDigit c || (c == Byte.minus && startsWithDigit s)) = false ∧ c ≠ Byte.quote := by
  have hquote : [Byte.quote] <+: c :: s ↔ c = Byte.quote := by
    rw [List.cons_prefix_cons, and_iff_left List.nil_prefix, eq_comm]
  rw [StartsOther, startsWord_cons, startsNumber_cons, hquote, Bool.not_eq_true,
    Bool.not_eq_true]

theorem read_other (h : StartsOther (c :: s)) : read (c :: s) = symbol (c :: s) := by
  obtain ⟨hletter, hnumber, hquote⟩ := startsOther_cons.mp h
  rw [Lexeme.read, if_neg (by simp [hletter]), if_neg (by simp [hnumber]), if_neg hquote]

theorem symbol_of_some {k : Kind} (h : Kind.symbolAt? s = some k) : symbol s = plain k k.name := by
  rw [symbol, h]

/-- What is taken where no symbol stands. -/
theorem symbol_of_none (hdoubles : NoneOf Kind.doubles s) (hsingles : NoneOf Kind.singles s)
    {taken : Text} (htaken : s.take (Utf8.headWidth s) = taken) :
    symbol s = ⟨.illegal, taken, taken.length, some (.illegalCharacter taken)⟩ := by
  rw [symbol, symbolAt?_none hdoubles hsingles]
  simp only [htaken]

end Munch

open Munch Lexeme

variable {c : UInt8} {s : Text}

/-- The token that is read is one of the reference. -/
theorem munch_read (c : UInt8) (s : Text) : ∃ taken,
    Munch (c :: s) (read (c :: s)).kind (read (c :: s)).content taken := by
  by_cases hword : StartsWord (c :: s)
  · have hletter := startsWord_cons.mp hword
    rw [read_word hletter]
    exact ⟨_, .word hword (longest_word hletter s) (named_iff.mpr rfl)⟩
  by_cases hnumber : StartsNumber (c :: s)
  · rw [read_number (not_isLetter_of_startsNumber hnumber) (startsNumber_cons.mp hnumber),
      number_kind hnumber, number_content]
    exact ⟨_, .number hnumber (longest_number hnumber)⟩
  by_cases hquote : c = Byte.quote
  · subst hquote
    rw [read_quoted, quoted]
    cases hbody : stringBody? s with
    | some body =>
        obtain ⟨hcloses, hfirst⟩ := closes_first hbody
        exact ⟨_, .string hcloses hfirst⟩
    | none => exact ⟨_, .unclosed (closes_none hbody)⟩
  have hother : StartsOther (c :: s) :=
    ⟨hword, hnumber, fun h => hquote (List.cons_prefix_cons.mp h).1.symm⟩
  rw [read_other hother]
  by_cases hdouble : ∃ k ∈ Kind.doubles, k.name <+: c :: s
  · obtain ⟨k, hk, hpre⟩ := hdouble
    rw [symbol_of_some (Kind.symbolAt?_double hk hpre)]
    exact ⟨_, .double hother hk hpre⟩
  have hdoubles : NoneOf Kind.doubles (c :: s) := fun k hk hpre => hdouble ⟨k, hk, hpre⟩
  by_cases hsingle : ∃ k ∈ Kind.singles, k.name <+: c :: s
  · obtain ⟨k, hk, hpre⟩ := hsingle
    rw [symbol_of_some (Kind.symbolAt?_single hk hpre hdoubles)]
    exact ⟨_, .single hother hdoubles hk hpre⟩
  have hsingles : NoneOf Kind.singles (c :: s) := fun k hk hpre => hsingle ⟨k, hk, hpre⟩
  by_cases hchar : ∃ ch, String.utf8EncodeChar ch <+: c :: s
  · obtain ⟨ch, hpre⟩ := hchar
    rw [symbol_of_none hdoubles hsingles (take_headWidth hpre)]
    exact ⟨_, .character hother hdoubles hsingles hpre⟩
  · have hstray : ∀ ch, ¬ String.utf8EncodeChar ch <+: c :: s := fun ch hpre => hchar ⟨ch, hpre⟩
    rw [symbol_of_none hdoubles hsingles (take_headWidth_stray hstray)]
    exact ⟨_, .stray hother hdoubles hsingles hstray⟩

/-- The reference leaves no choice: its token is the one that is read. -/
theorem Munch.read_eq {k : Kind} {w taken : Text} (h : Munch (c :: s) k w taken) :
    (read (c :: s)).kind = k ∧ (read (c :: s)).content = w ∧
      (read (c :: s)).width = taken.length := by
  cases h with
  | word hword hlongest hnamed =>
      have hletter := startsWord_cons.mp hword
      obtain rfl := hlongest.unique (longest_word hletter s)
      rw [read_word hletter]
      exact ⟨named_iff.mp hnamed, rfl, rfl⟩
  | number hnumber hlongest =>
      obtain rfl := hlongest.unique (longest_number hnumber)
      rw [read_number (not_isLetter_of_startsNumber hnumber) (startsNumber_cons.mp hnumber),
        number_kind hnumber, number_content]
      refine ⟨rfl, rfl, ?_⟩
      rw [number_eq]
      rfl
  | string hcloses hfirst =>
      rw [read_quoted, quoted, stringBody?_of_closes hcloses hfirst]
      exact ⟨rfl, rfl, by simp⟩
  | unclosed hnone =>
      have hbody : stringBody? s = none := by
        cases hbody : stringBody? s with
        | none => rfl
        | some body => exact absurd (closes_first hbody).1 (hnone body)
      rw [read_quoted, quoted, hbody]
      exact ⟨rfl, rfl, by simp⟩
  | double hother hk hpre =>
      rw [read_other hother, symbol_of_some (Kind.symbolAt?_double hk hpre)]
      exact ⟨rfl, rfl, rfl⟩
  | single hother hdoubles hk hpre =>
      rw [read_other hother, symbol_of_some (Kind.symbolAt?_single hk hpre hdoubles)]
      exact ⟨rfl, rfl, rfl⟩
  | character hother hdoubles hsingles hpre =>
      rw [read_other hother, symbol_of_none hdoubles hsingles (take_headWidth hpre)]
      exact ⟨rfl, rfl, rfl⟩
  | stray hother hdoubles hsingles hstray =>
      rw [read_other hother, symbol_of_none hdoubles hsingles (take_headWidth_stray hstray)]
      exact ⟨rfl, rfl, rfl⟩

/-! ## All tokens -/

theorem Munch.taken_isPrefix {k : Kind} {w taken : Text} (h : Munch s k w taken) :
    taken <+: s := by
  cases h with
  | word _ hlongest _ => exact hlongest.heads
  | number _ hlongest => exact hlongest.heads
  | string hcloses _ => exact List.cons_prefix_cons.mpr ⟨rfl, hcloses.1⟩
  | unclosed _ => exact List.prefix_refl _
  | double _ _ hpre => exact hpre
  | single _ _ _ hpre => exact hpre
  | character _ _ _ hpre => exact hpre
  | stray _ _ _ _ => exact List.cons_prefix_cons.mpr ⟨rfl, List.nil_prefix⟩

theorem Munch.taken_ne_nil {k : Kind} {w taken : Text} (h : Munch (c :: s) k w taken) :
    taken ≠ [] := by
  have hpos := (read_takes c s).width_pos
  rw [h.read_eq.2.2] at hpos
  exact List.length_pos_iff.mp hpos

/-- Every text consists of tokens. -/
theorem exists_munches : ∀ s : Text, ∃ ts, Munches s ts
  | [] => ⟨_, .done⟩
  | c :: s => by
      by_cases hc : Byte.isLayout c = true
      · obtain ⟨ts, hts⟩ := exists_munches s
        exact ⟨ts, .layout hc hts⟩
      · obtain ⟨taken, hmunch⟩ := munch_read c s
        obtain ⟨rest, hrest⟩ := hmunch.taken_isPrefix
        have hless : rest.length < (c :: s).length := by
          rw [← hrest, List.length_append]
          have := List.length_pos_iff.mpr hmunch.taken_ne_nil
          omega
        obtain ⟨ts, hts⟩ := exists_munches rest
        exact ⟨_, .token (by simpa using hc) hmunch hrest.symm hts⟩
termination_by s => s.length
decreasing_by
  · exact Nat.lt_succ_self _
  · exact hless

/-- A scanner with steps enough finds the tokens of what it has not read. -/
theorem Munches.take_eq {ts : List (Kind × Text)} (h : Munches s ts) :
    ∀ (scanner : Scanner) {n : Nat}, scanner.unread = s → s.length < n →
      (scanner.take n).1.map (fun t => (t.kind, t.lexeme)) = ts := by
  induction h with
  | done =>
      rintro scanner (_ | n) hunread hn
      · exact absurd hn (Nat.not_lt_zero _)
      · have hnil : scanner.skipLayout.unread = [] := by simp [Scanner.skipLayout, hunread]
        rw [Scanner.take_of_end n (Scanner.next_of_nil hnil) rfl]
        rfl
  | layout hc _ ih =>
      rintro scanner (_ | n) hunread hn
      · exact absurd hn (Nat.not_lt_zero _)
      · rw [Scanner.take_layout hunread hc n]
        exact ih _ rfl (Nat.lt_of_succ_lt hn)
  | @token c s w taken rest k ts hc hmunch hsplit _ ih =>
      rintro scanner (_ | n) hunread hn
      · exact absurd hn (Nat.not_lt_zero _)
      · obtain ⟨hkind, hcontent, hwidth⟩ := hmunch.read_eq
        have hskip : scanner.skipLayout.unread = c :: s := by
          simp [Scanner.skipLayout, hunread, hc]
        obtain ⟨l, hl, htakes, hnext⟩ := Scanner.next_of_ne_nil (s := scanner) (by simp [hskip])
        rw [hskip] at hl
        subst hl
        have hmark : (scanner.skipLayout.place (read (c :: s))).isEof = false :=
          decide_eq_false htakes.kind_ne
        have hless := Scanner.unread_behind_lt htakes
        have hbehind : (scanner.skipLayout.behind (read (c :: s))).unread = rest := by
          rw [Scanner.behind, hskip, hwidth, hsplit, List.drop_left]
        rw [hunread, hbehind] at hless
        rw [Scanner.take_of_more n hnext hmark, List.map_cons, ih _ hbehind (by omega)]
        exact congrArg (· :: ts) (Prod.ext hkind hcontent)

/-- The kinds and lexemes of every source, up to and with the end token, are
those that the classes of tokens give it. -/
theorem scan_iff_munches (source : Text) (ts : List (Kind × Text)) :
    (Token.scan source).1.map (fun t => (t.kind, t.lexeme)) = ts ↔ Munches source ts := by
  have hscan : ∀ ts, Munches source ts →
      (Token.scan source).1.map (fun t => (t.kind, t.lexeme)) = ts := fun ts h =>
    h.take_eq (.ofSource source) rfl (Nat.lt_succ_self _)
  constructor
  · rintro rfl
    obtain ⟨ts, hts⟩ := exists_munches source
    rwa [hscan ts hts]
  · exact hscan ts

end Scriptlet
