import Scriptlet.Proofs.Number.Widening
import Scriptlet.Value.Basic

/-!
# Equality of values

Integers are compared with integers as they are, and with floats as doubles.
`Value.Equals` lists the ways in which two plain values are equal, one rule for
each, and `equal` decides it (`equal_iff`).

Equality is reflexive but for NaN, and symmetric. It is transitive as far as the
doubles go: a float in the middle may be equal to two integers that are not equal to
each other, since both become that double (`Value.Blurs`). This is the only way for
transitivity to fail, and no integer of less than 2 ^ 53 has a part in it
(`equal_equivalence_unless_blurs`).
-/

namespace Scriptlet

namespace Value

def isNaN : Value → Bool
  | float x => x.isNaN
  | _ => false

/-- The values that scripts come to, without NaN. -/
structure Regular (x : Value) : Prop where
  plain : x.isPlain = true
  number : x.isNaN = false

/-! ## Ways to be equal -/

inductive Equals : Value → Value → Prop where
  | integer (n : Int64) : Equals (integer n) (integer n)
  | float {x y : Float} : (x == y) = true → Equals (float x) (float y)
  | boolean (b : Bool) : Equals (boolean b) (boolean b)
  | string (s : Text) : Equals (string s) (string s)
  | null : Equals null null
  | widened {n : Int64} {x : Float} : (Float.ofInt n.toInt == x) = true →
      Equals (.integer n) (.float x)
  | narrowed {x : Float} {n : Int64} : (x == Float.ofInt n.toInt) = true →
      Equals (.float x) (.integer n)

variable {x y z : Value}

theorem equal_iff (hx : x.isPlain = true) (hy : y.isPlain = true) :
    equal x y = true ↔ Equals x y := by
  constructor
  · intro h
    cases x with
    | integer n =>
        cases y with
        | integer m =>
            obtain rfl : n = m := beq_iff_eq.mp h
            exact .integer n
        | float => exact .widened h
        | _ => exact absurd h Bool.false_ne_true
    | float =>
        cases y with
        | integer => exact .narrowed h
        | float => exact .float h
        | _ => exact absurd h Bool.false_ne_true
    | boolean b =>
        cases y with
        | boolean c =>
            obtain rfl : b = c := beq_iff_eq.mp h
            exact .boolean b
        | _ => exact absurd h Bool.false_ne_true
    | string s =>
        cases y with
        | string t =>
            obtain rfl : s = t := beq_iff_eq.mp h
            exact .string s
        | _ => exact absurd h Bool.false_ne_true
    | null =>
        cases y with
        | null => exact .null
        | _ => exact absurd h Bool.false_ne_true
    | returned | returnedNothing => cases hx
  · intro h
    cases h with
    | integer n => exact beq_self_eq_true n
    | boolean b => exact beq_self_eq_true b
    | string s => exact beq_self_eq_true s
    | null => rfl
    | float h | widened h | narrowed h => exact h

/-- Different integers that become one double. -/
def Blurs (x z : Value) : Prop :=
  ∃ n m : Int64, x = integer n ∧ z = integer m ∧ n ≠ m ∧
    Number.nearestInt n.toInt = Number.nearestInt m.toInt

theorem widened_beq_widened {n m : Int64} :
    (Float.ofInt n.toInt == Float.ofInt m.toInt) = true ↔
      Number.nearestInt n.toInt = Number.nearestInt m.toInt := by
  have hsize : ∀ k : Int64, k.toInt.natAbs < 2 ^ 64 := by
    intro k
    have hlow := k.le_toInt
    have hhigh := k.toInt_lt
    omega
  exact Number.ofInt_beq_ofInt (hsize n) (hsize m)

namespace Equals

theorem refl (h : x.Regular) : Equals x x := by
  cases x with
  | integer n => exact .integer n
  | float f => exact .float (Number.isNaN_eq_false_iff.mp h.number)
  | boolean b => exact .boolean b
  | string s => exact .string s
  | null => exact .null
  | returned | returnedNothing => cases h.plain

theorem symm (h : Equals x y) : Equals y x := by
  cases h with
  | integer n => exact .integer n
  | float h => exact .float (BEq.symm h)
  | boolean b => exact .boolean b
  | string s => exact .string s
  | null => exact .null
  | widened h => exact .narrowed (BEq.symm h)
  | narrowed h => exact .widened (BEq.symm h)

/-- Doubles pass equality on, but not to the integers at both ends. -/
theorem trans_or_blurs (hxy : Equals x y) (hyz : Equals y z) :
    Equals x z ∨ y.kind = .float ∧ Blurs x z := by
  cases hxy with
  | integer | boolean | string | null => exact Or.inl hyz
  | float hxy =>
      cases hyz with
      | float hyz => exact Or.inl (.float (BEq.trans hxy hyz))
      | narrowed hyz => exact Or.inl (.narrowed (BEq.trans hxy hyz))
  | @widened n f hxy =>
      cases hyz with
      | float hyz => exact Or.inl (.widened (BEq.trans hxy hyz))
      | @narrowed _ m hyz =>
          by_cases hne : n = m
          · subst hne
            exact Or.inl (.integer n)
          · refine Or.inr ⟨rfl, n, m, rfl, rfl, hne, ?_⟩
            exact widened_beq_widened.mp (BEq.trans hxy hyz)
  | narrowed hxy =>
      cases hyz with
      | integer => exact Or.inl (.narrowed hxy)
      | widened hyz => exact Or.inl (.float (BEq.trans hxy hyz))

end Equals

/-- Both integers are equal to the double that they become. -/
theorem Blurs.between (h : Blurs x z) :
    equal x z = false ∧ ∃ w, w.Regular ∧ Equals x w ∧ Equals w z := by
  obtain ⟨n, m, rfl, rfl, hne, hnearest⟩ := h
  have hself : (Float.ofInt n.toInt == Float.ofInt n.toInt) = true := widened_beq_widened.mpr rfl
  refine ⟨beq_eq_false_iff_ne.mpr hne, float (Float.ofInt n.toInt), ⟨rfl, ?_⟩, .widened hself, ?_⟩
  · exact Number.isNaN_eq_false_iff.mpr hself
  · exact .narrowed (widened_beq_widened.mpr hnearest)

theorem Blurs.large (h : Blurs x z) : ∃ n m : Int64, x = integer n ∧ z = integer m ∧
    2 ^ 53 ≤ n.toInt.natAbs ∧ 2 ^ 53 ≤ m.toInt.natAbs := by
  obtain ⟨n, m, rfl, rfl, hne, hnearest⟩ := h
  have hne' : n.toInt ≠ m.toInt := mt Int64.toInt_inj.mp hne
  exact ⟨n, m, rfl, rfl, Number.le_of_nearestInt_eq hnearest hne',
    Number.le_of_nearestInt_eq hnearest.symm hne'.symm⟩

/-- Equality is reflexive and symmetric, and what it relates in two steps it relates
in one, unless a float stands between two different integers that become one
double. All such integers have such a float between them, and all are at least
2 ^ 53 in size. -/
theorem equal_equivalence_unless_blurs (hx : x.Regular) (hy : y.Regular) (hz : z.Regular) :
    equal x x = true ∧ equal x y = equal y x ∧
      (equal x y = true → equal y z = true →
        equal x z = true ∨ y.kind = .float ∧ Blurs x z) ∧
      (Blurs x z → equal x z = false ∧
        ∃ w, w.Regular ∧ equal x w = true ∧ equal w z = true) ∧
      (Blurs x z → ∃ n m : Int64, x = integer n ∧ z = integer m ∧
        2 ^ 53 ≤ n.toInt.natAbs ∧ 2 ^ 53 ≤ m.toInt.natAbs) := by
  refine ⟨(equal_iff hx.plain hx.plain).mpr (.refl hx), ?_, fun hxy hyz => ?_, fun h => ?_,
    Blurs.large⟩
  · rw [Bool.eq_iff_iff, equal_iff hx.plain hy.plain, equal_iff hy.plain hx.plain]
    exact ⟨Equals.symm, Equals.symm⟩
  · rw [equal_iff hx.plain hy.plain] at hxy
    rw [equal_iff hy.plain hz.plain] at hyz
    rw [equal_iff hx.plain hz.plain]
    exact hxy.trans_or_blurs hyz
  · obtain ⟨hne, w, hw, hxw, hwz⟩ := h.between
    exact ⟨hne, w, hw, (equal_iff hx.plain hw.plain).mpr hxw, (equal_iff hw.plain hz.plain).mpr hwz⟩

/-- The two zeros of floats, with that of integers in between. -/
theorem equal_equivalence_unless_blurs_zeros :
    equal (float 0.0) (integer 0) = true ∧ equal (integer 0) (float (-0.0)) = true ∧
      equal (float 0.0) (float (-0.0)) = true := by
  obtain ⟨hplus, hminus, hnumbers⟩ : equal (float 0.0) (integer 0) = true ∧
      equal (integer 0) (float (-0.0)) = true ∧
      (float 0.0).isNaN = false ∧ (float (-0.0)).isNaN = false := by
    decide +kernel
  obtain ⟨-, -, htrans, -⟩ := equal_equivalence_unless_blurs (x := float 0.0) (y := integer 0)
    (z := float (-0.0)) ⟨rfl, hnumbers.1⟩ ⟨rfl, rfl⟩ ⟨rfl, hnumbers.2⟩
  exact ⟨hplus, hminus, (htrans hplus hminus).resolve_right fun h => nomatch h.1⟩

/-- The first two integers that become one double are equal to it and not to each
other. -/
theorem equal_not_transitive :
    (float 9007199254740992.0).Regular ∧
      equal (integer 9007199254740992) (float 9007199254740992.0) = true ∧
      equal (float 9007199254740992.0) (integer 9007199254740993) = true ∧
      equal (integer 9007199254740992) (integer 9007199254740993) = false := by
  obtain ⟨hnumber, hequal⟩ : (float 9007199254740992.0).isNaN = false ∧
      equal (integer 9007199254740992) (float 9007199254740992.0) = true ∧
      equal (float 9007199254740992.0) (integer 9007199254740993) = true ∧
      equal (integer 9007199254740992) (integer 9007199254740993) = false := by
    decide +kernel
  exact ⟨⟨rfl, hnumber⟩, hequal⟩

end Value

end Scriptlet
