import Scriptlet.Number.Fraction
import Scriptlet.Token.Lexeme

/-!
# Signs of numbers

A minus in front of the digits of a number negates its value, in integers and
in doubles, and takes no number out of range.
-/

namespace Scriptlet

namespace Number

open Lexeme

theorem takeSign_digit {s : Text} (h : startsWithDigit s = true) : takeSign s = (false, s) := by
  cases s with
  | nil => cases h
  | cons c s =>
      have hc : Byte.isDigit c = true := h
      have hminus : c ≠ Byte.minus := by
        rintro rfl
        cases hc
      have hplus : c ≠ Byte.plus := by
        rintro rfl
        cases hc
      rw [takeSign, if_neg hminus, if_neg hplus]

theorem takeSign_minus (s : Text) : takeSign (Byte.minus :: s) = (true, s) := rfl

theorem readInt?_minus {s : Text} {n : Int} (hdigit : startsWithDigit s = true)
    (h : readInt? s = some n) : 0 ≤ n ∧ readInt? (Byte.minus :: s) = some (-n) := by
  rw [readInt?, takeSign_digit hdigit] at h
  rw [readInt?, takeSign_minus]
  dsimp only at h ⊢
  split at h
  · cases h
  · rename_i hdigits
    rw [if_neg hdigits]
    obtain rfl := Option.some.inj h
    exact ⟨Int.natCast_nonneg _, rfl⟩

theorem readInt64?_minus {s : Text} {n : Int64} (hdigit : startsWithDigit s = true)
    (h : readInt64? s = some n) : readInt64? (Byte.minus :: s) = some (-n) := by
  obtain ⟨m, hm, hn⟩ := Option.bind_eq_some_iff.mp h
  obtain ⟨hpos, hminus⟩ := readInt?_minus hdigit hm
  rw [readInt64?, hminus, Option.bind_some]
  split at hn
  · rename_i hfits
    obtain rfl := Option.some.inj hn
    have hfits' : fitsInt64 (-m) = true := by
      simp only [fitsInt64, Int64.toInt_minValue, Int64.toInt_maxValue, Bool.and_eq_true,
        decide_eq_true_eq] at hfits ⊢
      omega
    rw [if_pos hfits', Int64.ofInt_neg]
  · cases hn

theorem lower_ne_nan_of_digit {s : Text} (h : startsWithDigit s = true) :
    Text.lower s ≠ text "nan" := by
  cases s with
  | nil => cases h
  | cons c s =>
      intro hword
      have hc : Byte.toLower c = 0x6e := (List.cons.inj hword).1
      have hdigit : Byte.isDigit c = true := h
      unfold Byte.toLower at hc
      split at hc
      · obtain rfl : c = 0x4e := by grind
        cases hdigit
      · subst hc
        cases hdigit

theorem readFloat?_minus {s : Text} {x : Float} (hdigit : startsWithDigit s = true)
    (h : readFloat? s = some x) : readFloat? (Byte.minus :: s) = some (-x) := by
  have hminus : Text.lower (Byte.minus :: s) ≠ text "nan" := fun hword =>
    absurd (List.cons.inj hword).1 (by decide)
  rw [readFloat?, if_neg (lower_ne_nan_of_digit hdigit), takeSign_digit hdigit] at h
  obtain ⟨y, hy, rfl⟩ := Option.map_eq_some_iff.mp h
  rw [readFloat?, if_neg hminus, takeSign_minus]
  exact Option.map_eq_some_iff.mpr ⟨y, hy, rfl⟩

end Number

end Scriptlet
