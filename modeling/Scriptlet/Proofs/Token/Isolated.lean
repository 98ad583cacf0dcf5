import Scriptlet.Proofs.Token.Munch

/-!
# A token is read from its own bytes

The token at the head of a text depends on the bytes it takes and on nothing
behind them: cut off from the rest of the text, the same bytes give the same
token (`Lexeme.read_alone`), and so they do in front of layout
(`Lexeme.read_before_layout`). The one exception is a string literal that is
not closed, which takes whatever follows it.

Both are shown of the classes of tokens and not of the lexer. A token is the
longest prefix in its class, so it is the longest in every shorter text that it
still fits into; and no class has a layout byte in it, so a text that goes on
with layout has no prefixes in the class that it did not have before.
-/

namespace Scriptlet

/-! ## Layout bytes -/

namespace Byte

theorem isLayout_iff {b : UInt8} :
    isLayout b = true ↔ b = space ∨ b = tab ∨ b = newline ∨ b = carriageReturn := by
  simp [isLayout, or_assoc]

theorem not_isLetter_of_isLayout {b : UInt8} (h : isLayout b = true) : isLetter b = false := by
  rcases isLayout_iff.mp h with rfl | rfl | rfl | rfl <;> rfl

theorem not_isDigit_of_isLayout {b : UInt8} (h : isLayout b = true) : isDigit b = false := by
  rcases isLayout_iff.mp h with rfl | rfl | rfl | rfl <;> rfl

end Byte

namespace Munch

open Lexeme

variable {b : UInt8} {s rest : Text}

/-- A prefix that a byte is not in ends before that byte. -/
theorem prefix_before {v : Text} (h : v <+: s ++ b :: rest) (hb : b ∉ v) : v <+: s := by
  rcases List.prefix_or_prefix_of_prefix h (List.prefix_append s (b :: rest)) with hv | ⟨t, rfl⟩
  · exact hv
  · rw [List.prefix_append_right_inj] at h
    cases t with
    | nil => rw [List.append_nil]
    | cons d t =>
        obtain rfl := (List.cons_prefix_cons.mp h).1
        exact absurd (List.mem_append_right s List.mem_cons_self) hb

/-! ## No class has layout in it -/

theorem layout_not_mem_words (hb : Byte.isLayout b = true) {w : Text} (hw : w ∈ words) :
    b ∉ w := by
  obtain ⟨c, u, hc, hu, rfl⟩ := mem_words.mp hw
  intro hmem
  have hclass : (Byte.isLetter b || Byte.isDigit b) = true := by
    rcases List.mem_cons.mp hmem with rfl | hmem
    · simp [hc]
    · exact hu b hmem
  simp [Byte.not_isLetter_of_isLayout hb, Byte.not_isDigit_of_isLayout hb] at hclass

theorem layout_not_mem_digits (hb : Byte.isLayout b = true) {w : Text} (hw : w ∈ digits) :
    b ∉ w := by
  intro hmem
  have hrun := (digits_prefix_digitRun hw (List.prefix_refl w)).2.subset hmem
  rcases mem_digitRun hrun with hdigit | rfl
  · simp [Byte.not_isDigit_of_isLayout hb] at hdigit
  · cases hb

theorem layout_not_mem_numbers (hb : Byte.isLayout b = true) {w : Text} (hw : w ∈ numbers) :
    b ∉ w := by
  obtain ⟨_, hsigned, fraction, hfraction, rfl⟩ := Language.mem_mul.mp hw
  obtain ⟨sign, hsign, ds, hds, rfl⟩ := Language.mem_mul.mp hsigned
  rw [List.mem_append, List.mem_append, not_or, not_or]
  refine ⟨⟨?_, layout_not_mem_digits hb hds⟩, ?_⟩
  · rcases mem_optional.mp hsign with rfl | rfl
    · exact List.not_mem_nil
    · rw [List.mem_singleton]
      rintro rfl
      cases hb
  · rcases (Language.mem_add _ _ _).mp hfraction with hnone | hsome
    · rw [(Language.mem_one _).mp hnone]
      exact List.not_mem_nil
    · obtain ⟨point, hpoint, es, hes, rfl⟩ := Language.mem_mul.mp hsome
      rw [mem_only.mp hpoint, List.singleton_append, List.mem_cons, not_or]
      refine ⟨?_, layout_not_mem_digits hb hes⟩
      rintro rfl
      cases hb

theorem layout_not_mem_name (hb : Byte.isLayout b = true) {k : Kind}
    (hk : k ∈ Kind.doubles ++ Kind.singles) : b ∉ k.name := by
  have hall : ((Kind.doubles ++ Kind.singles).all fun k =>
      k.name.all (!Byte.isLayout ·)) = true := by
    decide
  intro hmem
  have hnone := List.all_eq_true.mp (List.all_eq_true.mp hall k hk) b hmem
  simp [hb] at hnone

/-- The bytes of ASCII encode no part of another character. -/
theorem encoded_of_ascii {ch : Char} (hb : b < 0x80) (hmem : b ∈ String.utf8EncodeChar ch) :
    String.utf8EncodeChar ch = [b] := by
  have hlt : b.toNat < 0x80 := UInt8.lt_iff_toNat_lt.mp hb
  have hform := Utf8.form_encoded ch
  generalize String.utf8EncodeChar ch = bytes at hform hmem ⊢
  generalize ch.toNat = n at hform
  cases hform with
  | one hc => rw [List.mem_singleton.mp hmem]
  | two hlow hhigh hd =>
      have hd' := Utf8.isContinuation_iff.mp hd
      simp only [List.mem_cons, List.not_mem_nil, or_false] at hmem
      rcases hmem with rfl | rfl <;> omega
  | three hlow hhigh hd he =>
      have hd' := Utf8.isSecond_iff.mp hd
      have he' := Utf8.isContinuation_iff.mp he
      simp only [List.mem_cons, List.not_mem_nil, or_false] at hmem
      rcases hmem with rfl | rfl | rfl <;> omega
  | four hlow hhigh hd he hf =>
      have hd' := Utf8.isSecond_iff.mp hd
      have he' := Utf8.isContinuation_iff.mp he
      have hf' := Utf8.isContinuation_iff.mp hf
      simp only [List.mem_cons, List.not_mem_nil, or_false] at hmem
      rcases hmem with rfl | rfl | rfl | rfl <;> omega

theorem ascii_of_isLayout (hb : Byte.isLayout b = true) : b < 0x80 := by
  rcases Byte.isLayout_iff.mp hb with rfl | rfl | rfl | rfl <;> decide

/-! ## Shorter texts and texts that go on with layout -/

theorem Longest.shorten {L : Language UInt8} {w t : Text} (h : Longest L s w) (hw : w <+: t)
    (ht : t <+: s) : Longest L t w :=
  ⟨hw, h.mem, fun v hv => h.longest v (hv.trans ht)⟩

theorem Longest.before {L : Language UInt8} {w : Text} (h : Longest L s w)
    (hL : ∀ v ∈ L, b ∉ v) : Longest L (s ++ b :: rest) w :=
  ⟨h.heads.trans (List.prefix_append _ _), h.mem,
    fun v hv hmem => h.longest v (prefix_before hv (hL v hmem)) hmem⟩

theorem StartsOther.shorten {t : Text} (h : StartsOther s) (ht : t <+: s) : StartsOther t := by
  obtain ⟨hword, hnumber, hquote⟩ := h
  refine ⟨?_, ?_, fun hpre => hquote (hpre.trans ht)⟩
  · rintro ⟨c, hc, hpre⟩
    exact hword ⟨c, hc, hpre.trans ht⟩
  · rintro ⟨d, hd, hpre | hpre⟩
    · exact hnumber ⟨d, hd, Or.inl (hpre.trans ht)⟩
    · exact hnumber ⟨d, hd, Or.inr (hpre.trans ht)⟩

theorem NoneOf.shorten {table : List Kind} {t : Text} (h : NoneOf table s) (ht : t <+: s) :
    NoneOf table t := fun k hk hpre => h k hk (hpre.trans ht)

theorem NoneOf.before {table : List Kind} (h : NoneOf table s)
    (htable : ∀ k ∈ table, b ∉ k.name) : NoneOf table (s ++ b :: rest) :=
  fun k hk hpre => h k hk (prefix_before hpre (htable k hk))

theorem StartsOther.before (h : StartsOther s) (hb : Byte.isLayout b = true) :
    StartsOther (s ++ b :: rest) := by
  have hletter := Byte.not_isLetter_of_isLayout hb
  have hdigit := Byte.not_isDigit_of_isLayout hb
  obtain ⟨hword, hnumber, hquote⟩ := h
  refine ⟨?_, ?_, ?_⟩
  · rintro ⟨c, hc, hpre⟩
    refine hword ⟨c, hc, prefix_before hpre ?_⟩
    rw [List.mem_singleton]
    rintro rfl
    simp [hletter] at hc
  · rintro ⟨d, hd, hpre | hpre⟩
    · refine hnumber ⟨d, hd, Or.inl (prefix_before hpre ?_)⟩
      rw [List.mem_singleton]
      rintro rfl
      simp [hdigit] at hd
    · refine hnumber ⟨d, hd, Or.inr (prefix_before hpre ?_)⟩
      rw [List.mem_pair]
      rintro (rfl | rfl)
      · cases hb
      · simp [hdigit] at hd
  · intro hpre
    refine hquote (prefix_before hpre ?_)
    rw [List.mem_singleton]
    rintro rfl
    cases hb

theorem closes_append {body : Text} (h : Closes s body) : Closes (s ++ rest) body :=
  ⟨h.1.trans (List.prefix_append _ _), h.2⟩

/-- A quote that closes a longer text closes the shorter one, if it is in it. -/
theorem Closes.shorten {t body other : Text} (h : Closes s other)
    (hbody : body ++ [Byte.quote] <+: t) (ht : t <+: s) (hle : other.length ≤ body.length) :
    Closes t other := by
  refine ⟨List.prefix_of_prefix_length_le h.1 ht ?_, h.2⟩
  have hlength := hbody.length_le
  simp only [List.length_append, List.length_singleton] at hlength ⊢
  omega

end Munch

namespace Munch

variable {k : Kind} {w taken s : Text}

/-- The bytes of a token by themselves are that token. -/
theorem alone (h : Munch s k w taken) : Munch taken k w taken := by
  have htaken := h.taken_isPrefix
  cases h with
  | word hword hlongest hnamed =>
      refine .word ?_ (hlongest.shorten (List.prefix_refl _) htaken) hnamed
      obtain ⟨c, u, hc, -, rfl⟩ := mem_words.mp hlongest.mem
      exact startsWord_cons.mpr hc
  | number hnumber hlongest =>
      refine .number ?_ (hlongest.shorten (List.prefix_refl _) htaken)
      obtain ⟨_, hsigned, fraction, -, rfl⟩ := Language.mem_mul.mp hlongest.mem
      obtain ⟨sign, hsign, ds, hds, rfl⟩ := Language.mem_mul.mp hsigned
      have hdigit := (digits_prefix_digitRun hds (List.prefix_append ds fraction)).1
      exact startsNumber_iff.mpr ⟨sign, ds ++ fraction, hsign, hdigit, List.append_assoc _ _ _⟩
  | string hcloses hfirst =>
      refine .string ⟨List.prefix_refl _, hcloses.2⟩ fun other hother => ?_
      exact hfirst other ⟨hother.1.trans hcloses.1, hother.2⟩
  | unclosed hnone => exact .unclosed hnone
  | double hother hk _ => exact .double (hother.shorten htaken) hk (List.prefix_refl _)
  | single hother hdoubles hk _ =>
      exact .single (hother.shorten htaken) (hdoubles.shorten htaken) hk (List.prefix_refl _)
  | character hother hdoubles hsingles _ =>
      exact .character (hother.shorten htaken) (hdoubles.shorten htaken)
        (hsingles.shorten htaken) (List.prefix_refl _)
  | stray hother hdoubles hsingles hstray =>
      exact .stray (hother.shorten htaken) (hdoubles.shorten htaken) (hsingles.shorten htaken)
        fun ch hpre => hstray ch (hpre.trans htaken)

/-- Layout behind a text makes no difference to the token at its head, unless
that is a string literal without its closing quote. -/
theorem before_layout {b : UInt8} {rest : Text} (h : Munch s k w taken)
    (hb : Byte.isLayout b = true) (hclosed : k = .illegal → ¬ [Byte.quote] <+: s) :
    Munch (s ++ b :: rest) k w taken := by
  have hdoubleNames : ∀ k ∈ Kind.doubles, b ∉ k.name := fun k hk =>
    layout_not_mem_name hb (List.mem_append_left _ hk)
  have hsingleNames : ∀ k ∈ Kind.singles, b ∉ k.name := fun k hk =>
    layout_not_mem_name hb (List.mem_append_right _ hk)
  have happend : ∀ {v : Text}, v <+: s → v <+: s ++ b :: rest := fun hv =>
    hv.trans (List.prefix_append _ _)
  cases h with
  | word hword hlongest hnamed =>
      obtain ⟨c, hc, hpre⟩ := hword
      exact .word ⟨c, hc, happend hpre⟩ (hlongest.before fun v => layout_not_mem_words hb) hnamed
  | number hnumber hlongest =>
      obtain ⟨d, hd, hpre⟩ := hnumber
      exact .number ⟨d, hd, hpre.imp happend happend⟩
        (hlongest.before fun v => layout_not_mem_numbers hb)
  | string hcloses hfirst =>
      refine .string (closes_append hcloses) fun other hother => ?_
      rcases Nat.le_total w.length other.length with hle | hle
      · exact hle
      · exact hfirst other (hother.shorten hcloses.1 (List.prefix_append _ _) hle)
  | unclosed hnone => exact absurd (List.cons_prefix_cons.mpr ⟨rfl, List.nil_prefix⟩) (hclosed rfl)
  | double hother hk hpre => exact .double (hother.before hb) hk (happend hpre)
  | single hother hdoubles hk hpre =>
      exact .single (hother.before hb) (hdoubles.before hdoubleNames) hk (happend hpre)
  | character hother hdoubles hsingles hpre =>
      exact .character (hother.before hb) (hdoubles.before hdoubleNames)
        (hsingles.before hsingleNames) (happend hpre)
  | @stray c s hother hdoubles hsingles hstray =>
      refine .stray (hother.before hb) (hdoubles.before hdoubleNames)
        (hsingles.before hsingleNames) fun ch hpre => ?_
      by_cases hmem : b ∈ String.utf8EncodeChar ch
      · -- a layout byte is a character of its own, and then it is the first one here
        have hcode := encoded_of_ascii (ascii_of_isLayout hb) hmem
        rw [hcode] at hpre
        refine hstray ch ?_
        rw [hcode]
        exact List.cons_prefix_cons.mpr ⟨(List.cons_prefix_cons.mp hpre).1, List.nil_prefix⟩
      · exact hstray ch (prefix_before hpre hmem)

end Munch

/-! ## Lexemes -/

namespace Lexeme

variable {c : UInt8} {s : Text}

/-- The fault of a lexeme goes by its kind and by the byte it starts with. -/
theorem read_fault (c : UInt8) (s : Text) : (read (c :: s)).fault? =
    if (read (c :: s)).kind = .illegal then
      some (if c = Byte.quote then .unterminatedString
        else .illegalCharacter (read (c :: s)).content)
    else none := by
  have hplain : ∀ {k : Kind} {taken : Text} (fault : Fault), k.isVerbatim = true →
      (plain k taken).fault? = if (plain k taken).kind = .illegal then some fault else none := by
    intro k taken fault hk
    rw [if_neg]
    · rfl
    · rintro (rfl : k = .illegal)
      cases hk
  rw [read]
  split
  · exact hplain _ (Kind.isVerbatim_ofWord _)
  split
  · rw [number_eq]
    refine hplain _ ?_
    split <;> rfl
  split
  · unfold quoted
    cases stringBody? s <;> rfl
  · unfold symbol
    cases hsymbol : Kind.symbolAt? (c :: s) with
    | some k => exact hplain _ (Kind.isVerbatim_symbol k (Kind.symbolAt?_eq_some hsymbol).1)
    | none => rfl

/-- What is read is given by kind, text and bytes. -/
theorem read_eq_of_munch {s' taken : Text} {k : Kind} {w : Text} (h : Munch (c :: s) k w taken)
    (h' : Munch (c :: s') k w taken) : read (c :: s) = read (c :: s') := by
  obtain ⟨hkind, hcontent, hwidth⟩ := h.read_eq
  obtain ⟨hkind', hcontent', hwidth'⟩ := h'.read_eq
  have hfault : (read (c :: s)).fault? = (read (c :: s')).fault? := by
    rw [read_fault, read_fault, hkind, hkind', hcontent, hcontent']
  generalize read (c :: s) = l at hkind hcontent hwidth hfault ⊢
  generalize read (c :: s') = l' at hkind' hcontent' hwidth' hfault ⊢
  cases l
  cases l'
  subst hkind hcontent hwidth
  simp_all

/-- The bytes that a lexeme takes, as the classes of tokens give them. -/
theorem munch_take (c : UInt8) (s : Text) :
    Munch (c :: s) (read (c :: s)).kind (read (c :: s)).content
      ((c :: s).take (read (c :: s)).width) := by
  obtain ⟨taken, hmunch⟩ := munch_read c s
  rw [hmunch.read_eq.2.2, ← List.prefix_iff_eq_take.mp hmunch.taken_isPrefix]
  exact hmunch

/-- A string literal that takes the rest of the text with it. -/
def isOpen (l : Lexeme) : Bool := l.fault? = some .unterminatedString

theorem isOpen_read_iff : (read (c :: s)).isOpen = true ↔
    (read (c :: s)).kind = .illegal ∧ c = Byte.quote := by
  rw [isOpen, decide_eq_true_eq, read_fault]
  by_cases hk : (read (c :: s)).kind = .illegal
  · by_cases hc : c = Byte.quote <;> simp [hk, hc]
  · simp [hk]

theorem read_before_layout (hclosed : (read (c :: s)).isOpen = false) {b : UInt8}
    (hb : Byte.isLayout b = true) (rest : Text) : read (c :: s ++ b :: rest) = read (c :: s) := by
  have hmunch := munch_take c s
  refine read_eq_of_munch (hmunch.before_layout hb fun hk hpre => ?_) hmunch
  have hopen := isOpen_read_iff.mpr ⟨hk, (List.cons_prefix_cons.mp hpre).1.symm⟩
  rw [hclosed] at hopen
  cases hopen

/-- A lexeme takes the byte it starts with. -/
theorem take_width (c : UInt8) (s : Text) :
    ∃ n, (c :: s).take (read (c :: s)).width = c :: s.take n := by
  obtain ⟨n, hn⟩ := Nat.exists_eq_succ_of_ne_zero (Nat.ne_of_gt (read_takes c s).width_pos)
  exact ⟨n, by rw [hn, List.take_succ_cons]⟩

theorem read_alone (c : UInt8) (s : Text) :
    read ((c :: s).take (read (c :: s)).width) = read (c :: s) := by
  have hmunch := munch_take c s
  obtain ⟨n, hcons⟩ := take_width c s
  have halone := hmunch.alone
  rw [hcons] at halone hmunch ⊢
  exact read_eq_of_munch halone hmunch

end Lexeme

end Scriptlet
