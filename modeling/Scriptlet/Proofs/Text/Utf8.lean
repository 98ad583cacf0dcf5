import Mathlib.Tactic.SplitIfs
import Scriptlet.Text.Utf8

/-!
# Decoding undoes the standard encoding

`Utf8.decode?` reads a character off the head of a text exactly when the text
starts with the UTF-8 form of that character, as `String.utf8EncodeChar` gives
it (`decode?_eq_some_iff`).

`Form n bytes` lists the forms of one to four bytes by the numbers of their
bytes. On the one side it says what `decode?` accepts, on the other it is what
the encoding gives.
-/

namespace Scriptlet

namespace Utf8

/-- The second byte of a long form, which keeps to the bounds of the first. -/
def isSecond (c d : UInt8) : Bool := (secondBounds c).1 ≤ d && d ≤ (secondBounds c).2

/-- The code point that some bytes spell. -/
inductive Form : Nat → Text → Prop where
  | one {c : UInt8} : c.toNat < 0x80 → Form c.toNat [c]
  | two {c d : UInt8} : 0xc2 ≤ c.toNat → c.toNat ≤ 0xdf → isContinuation d = true →
      Form (extend (c.toNat - 0xc0) d) [c, d]
  | three {c d e : UInt8} : 0xe0 ≤ c.toNat → c.toNat ≤ 0xef → isSecond c d = true →
      isContinuation e = true → Form (extend (extend (c.toNat - 0xe0) d) e) [c, d, e]
  | four {c d e f : UInt8} : 0xf0 ≤ c.toNat → c.toNat ≤ 0xf4 → isSecond c d = true →
      isContinuation e = true → isContinuation f = true →
      Form (extend (extend (extend (c.toNat - 0xf0) d) e) f) [c, d, e, f]

/-! ## What is decoded -/

/-- The head of a text by the number of its first byte. -/
theorem decode?_cons (c : UInt8) (s : Text) :
    decode? (c :: s) =
      if c.toNat < 0x80 then some (c.toNat, 1)
      else if 0xc2 ≤ c.toNat ∧ c.toNat ≤ 0xdf then
        match s with
        | d :: _ => if isContinuation d then some (extend (c.toNat - 0xc0) d, 2) else none
        | _ => none
      else if 0xe0 ≤ c.toNat ∧ c.toNat ≤ 0xef then
        match s with
        | d :: e :: _ =>
            if isSecond c d ∧ isContinuation e then
              some (extend (extend (c.toNat - 0xe0) d) e, 3)
            else none
        | _ => none
      else if 0xf0 ≤ c.toNat ∧ c.toNat ≤ 0xf4 then
        match s with
        | d :: e :: f :: _ =>
            if isSecond c d ∧ isContinuation e ∧ isContinuation f then
              some (extend (extend (extend (c.toNat - 0xf0) d) e) f, 4)
            else none
        | _ => none
      else none := by
  simp only [decode?, isSecond, UInt8.lt_iff_toNat_lt, UInt8.le_iff_toNat_le, Bool.and_eq_true,
    decide_eq_true_eq, and_assoc]
  rfl

theorem decode?_of_form {n : Nat} {bytes : Text} (h : Form n bytes) (rest : Text) :
    decode? (bytes ++ rest) = some (n, bytes.length) := by
  cases h with
  | one hc => rw [List.singleton_append, decode?_cons, if_pos hc, List.length_singleton]
  | two hlow hhigh hd =>
      rw [List.cons_append, decode?_cons, if_neg (by omega), if_pos ⟨hlow, hhigh⟩]
      exact if_pos hd
  | three hlow hhigh hd he =>
      rw [List.cons_append, decode?_cons, if_neg (by omega), if_neg (by omega),
        if_pos ⟨hlow, hhigh⟩]
      exact if_pos ⟨hd, he⟩
  | four hlow hhigh hd he hf =>
      rw [List.cons_append, decode?_cons, if_neg (by omega), if_neg (by omega),
        if_neg (by omega), if_pos ⟨hlow, hhigh⟩]
      exact if_pos ⟨hd, he, hf⟩

theorem form_of_decode? {s : Text} {n width : Nat} (h : decode? s = some (n, width)) :
    ∃ bytes, Form n bytes ∧ bytes <+: s := by
  cases s with
  | nil => cases h
  | cons c s =>
      rw [decode?_cons] at h
      split at h
      · rename_i hc
        obtain ⟨rfl, -⟩ := Prod.mk.inj (Option.some.inj h)
        exact ⟨[c], .one hc, s, rfl⟩
      split at h
      · rename_i hc
        split at h
        · rename_i d r
          split at h
          · rename_i hd
            obtain ⟨rfl, -⟩ := Prod.mk.inj (Option.some.inj h)
            exact ⟨[c, d], .two hc.1 hc.2 hd, r, rfl⟩
          · cases h
        · cases h
      split at h
      · rename_i hc
        split at h
        · rename_i d e r
          split at h
          · rename_i hd
            obtain ⟨rfl, -⟩ := Prod.mk.inj (Option.some.inj h)
            exact ⟨[c, d, e], .three hc.1 hc.2 hd.1 hd.2, r, rfl⟩
          · cases h
        · cases h
      split at h
      · rename_i hc
        split at h
        · rename_i d e f r
          split at h
          · rename_i hd
            obtain ⟨rfl, -⟩ := Prod.mk.inj (Option.some.inj h)
            exact ⟨[c, d, e, f], .four hc.1 hc.2 hd.1 hd.2.1 hd.2.2, r, rfl⟩
          · cases h
        · cases h
      · cases h

/-! ## What is encoded -/

theorem isContinuation_iff {c : UInt8} :
    isContinuation c = true ↔ 0x80 ≤ c.toNat ∧ c.toNat ≤ 0xbf := by
  simp [isContinuation, UInt8.le_iff_toNat_le]

theorem isSecond_iff {c d : UInt8} : isSecond c d = true ↔
    (0x80 ≤ d.toNat ∧ d.toNat ≤ 0xbf) ∧ (c.toNat = 0xe0 → 0xa0 ≤ d.toNat) ∧
      (c.toNat = 0xed → d.toNat ≤ 0x9f) ∧ (c.toNat = 0xf0 → 0x90 ≤ d.toNat) ∧
      (c.toNat = 0xf4 → d.toNat ≤ 0x8f) := by
  have heq : ∀ b : UInt8, c = b ↔ c.toNat = b.toNat := fun b => UInt8.toNat_inj.symm
  simp only [isSecond, secondBounds, heq, Bool.and_eq_true, decide_eq_true_eq,
    UInt8.le_iff_toNat_le]
  split_ifs <;> simp_all <;> omega

/-- The continuation byte for the last six bits of a number. -/
theorem isContinuation_payload (m : Nat) : isContinuation (UInt8.ofNat (m % 64 + 128)) = true := by
  have hm := UInt8.toNat_ofNat_of_lt' (show m % 64 + 128 < 256 by omega)
  exact isContinuation_iff.mpr ⟨by omega, by omega⟩

theorem extend_payload (n m : Nat) : extend n (UInt8.ofNat (m % 64 + 128)) = 64 * n + m % 64 := by
  have hm := UInt8.toNat_ofNat_of_lt' (show m % 64 + 128 < 256 by omega)
  unfold extend
  omega

variable {n : Nat}

theorem form_one (h : n < 0x80) : Form n [UInt8.ofNat n] := by
  have hc := UInt8.toNat_ofNat_of_lt' (show n < 256 by omega)
  have hform := Form.one (c := UInt8.ofNat n) (by omega)
  rwa [hc] at hform

theorem form_two (hlow : 0x80 ≤ n) (hhigh : n < 0x800) :
    Form n [UInt8.ofNat (n / 64 % 32 + 192), UInt8.ofNat (n % 64 + 128)] := by
  have hc := UInt8.toNat_ofNat_of_lt' (show n / 64 % 32 + 192 < 256 by omega)
  have hform := Form.two (c := UInt8.ofNat (n / 64 % 32 + 192)) (by omega) (by omega)
    (isContinuation_payload n)
  rw [extend_payload, hc] at hform
  have hn : 64 * (n / 64 % 32 + 192 - 0xc0) + n % 64 = n := by omega
  rwa [hn] at hform

theorem form_three (hlow : 0x800 ≤ n) (hhigh : n < 0x10000)
    (hvalid : n < 0xd800 ∨ 0xdfff < n) :
    Form n [UInt8.ofNat (n / 4096 % 16 + 224), UInt8.ofNat (n / 64 % 64 + 128),
      UInt8.ofNat (n % 64 + 128)] := by
  have hc := UInt8.toNat_ofNat_of_lt' (show n / 4096 % 16 + 224 < 256 by omega)
  have hd := UInt8.toNat_ofNat_of_lt' (show n / 64 % 64 + 128 < 256 by omega)
  have hsecond : isSecond (UInt8.ofNat (n / 4096 % 16 + 224))
      (UInt8.ofNat (n / 64 % 64 + 128)) = true := by
    rw [isSecond_iff, hc, hd]
    omega
  have hform := Form.three (by omega) (by omega) hsecond (isContinuation_payload n)
  rw [extend_payload, extend_payload, hc] at hform
  have hn : 64 * (64 * (n / 4096 % 16 + 224 - 0xe0) + n / 64 % 64) + n % 64 = n := by omega
  rwa [hn] at hform

theorem form_four (hlow : 0x10000 ≤ n) (hhigh : n < 0x110000) :
    Form n [UInt8.ofNat (n / 262144 % 8 + 240), UInt8.ofNat (n / 4096 % 64 + 128),
      UInt8.ofNat (n / 64 % 64 + 128), UInt8.ofNat (n % 64 + 128)] := by
  have hc := UInt8.toNat_ofNat_of_lt' (show n / 262144 % 8 + 240 < 256 by omega)
  have hd := UInt8.toNat_ofNat_of_lt' (show n / 4096 % 64 + 128 < 256 by omega)
  have hsecond : isSecond (UInt8.ofNat (n / 262144 % 8 + 240))
      (UInt8.ofNat (n / 4096 % 64 + 128)) = true := by
    rw [isSecond_iff, hc, hd]
    omega
  have hform := Form.four (by omega) (by omega) hsecond (isContinuation_payload (n / 64))
    (isContinuation_payload n)
  rw [extend_payload, extend_payload, extend_payload, hc] at hform
  have hn : 64 * (64 * (64 * (n / 262144 % 8 + 240 - 0xf0) + n / 4096 % 64) + n / 64 % 64)
      + n % 64 = n := by omega
  rwa [hn] at hform

theorem form_encoded (ch : Char) : Form ch.toNat (String.utf8EncodeChar ch) := by
  have hvalid : ch.toNat < 0xd800 ∨ 0xdfff < ch.toNat ∧ ch.toNat < 0x110000 := ch.valid
  simp only [String.utf8EncodeChar, Char.toNat_val]
  by_cases h1 : ch.toNat ≤ 0x7f
  · rw [if_pos h1]
    exact form_one (by omega)
  rw [if_neg h1]
  by_cases h2 : ch.toNat ≤ 0x7ff
  · rw [if_pos h2]
    exact form_two (by omega) (by omega)
  rw [if_neg h2]
  by_cases h3 : ch.toNat ≤ 0xffff
  · rw [if_pos h3]
    exact form_three (by omega) (by omega) (by omega)
  · rw [if_neg h3]
    exact form_four (by omega) (by omega)

/-- The bytes of a form are those of the character they spell. -/
theorem encoded_of_form {bytes : Text} (h : Form n bytes) :
    ∃ ch : Char, ch.toNat = n ∧ String.utf8EncodeChar ch = bytes := by
  have hextend : ∀ m (c : UInt8), extend m c = 64 * m + (c.toNat - 0x80) := fun _ _ => rfl
  obtain ⟨hvalid, hbytes⟩ : n.isValidChar ∧ ∀ ch : Char, ch.toNat = n →
      String.utf8EncodeChar ch = bytes := by
    simp only [String.utf8EncodeChar, Char.toNat_val]
    cases h with
    | @one c hc =>
        refine ⟨Or.inl (by omega), fun ch hch => ?_⟩
        rw [hch, if_pos (by omega), UInt8.ofNat_toNat]
    | @two c d hlow hhigh hd =>
        have hn := hextend (c.toNat - 0xc0) d
        have hd' := isContinuation_iff.mp hd
        refine ⟨Or.inl (by omega), fun ch hch => ?_⟩
        rw [if_neg (by omega), if_pos (by omega)]
        have hc₁ : ch.toNat / 64 % 32 + 192 = c.toNat := by omega
        have hd₁ : ch.toNat % 64 + 128 = d.toNat := by omega
        simp only [hc₁, hd₁, UInt8.ofNat_toNat]
    | @three c d e hlow hhigh hd he =>
        have hm := hextend (c.toNat - 0xe0) d
        have hn := hextend (extend (c.toNat - 0xe0) d) e
        have hd' := isSecond_iff.mp hd
        have he' := isContinuation_iff.mp he
        refine ⟨by unfold Nat.isValidChar; omega, fun ch hch => ?_⟩
        rw [if_neg (by omega), if_neg (by omega), if_pos (by omega)]
        have hc₁ : ch.toNat / 4096 % 16 + 224 = c.toNat := by omega
        have hd₁ : ch.toNat / 64 % 64 + 128 = d.toNat := by omega
        have he₁ : ch.toNat % 64 + 128 = e.toNat := by omega
        simp only [hc₁, hd₁, he₁, UInt8.ofNat_toNat]
    | @four c d e f hlow hhigh hd he hf =>
        have hl := hextend (c.toNat - 0xf0) d
        have hm := hextend (extend (c.toNat - 0xf0) d) e
        have hn := hextend (extend (extend (c.toNat - 0xf0) d) e) f
        have hd' := isSecond_iff.mp hd
        have he' := isContinuation_iff.mp he
        have hf' := isContinuation_iff.mp hf
        refine ⟨by unfold Nat.isValidChar; omega, fun ch hch => ?_⟩
        rw [if_neg (by omega), if_neg (by omega), if_neg (by omega)]
        have hc₁ : ch.toNat / 262144 % 8 + 240 = c.toNat := by omega
        have hd₁ : ch.toNat / 4096 % 64 + 128 = d.toNat := by omega
        have he₁ : ch.toNat / 64 % 64 + 128 = e.toNat := by omega
        have hf₁ : ch.toNat % 64 + 128 = f.toNat := by omega
        simp only [hc₁, hd₁, he₁, hf₁, UInt8.ofNat_toNat]
  exact ⟨Char.ofNatAux n hvalid, rfl, hbytes _ rfl⟩

/-- A character is decoded where its encoding stands at the head, and only
there. -/
theorem decode?_eq_some_iff {s : Text} {width : Nat} :
    decode? s = some (n, width) ↔ ∃ ch : Char, ch.toNat = n ∧
      String.utf8EncodeChar ch <+: s ∧ (String.utf8EncodeChar ch).length = width := by
  constructor
  · intro h
    obtain ⟨bytes, hform, rest, rfl⟩ := form_of_decode? h
    obtain ⟨ch, hn, rfl⟩ := encoded_of_form hform
    rw [decode?_of_form hform] at h
    exact ⟨ch, hn, ⟨rest, rfl⟩, (Prod.mk.inj (Option.some.inj h)).2⟩
  · rintro ⟨ch, rfl, ⟨rest, rfl⟩, rfl⟩
    exact decode?_of_form (form_encoded ch) rest

end Utf8

end Scriptlet
