import Scriptlet.Text.Basic

/-!
# Shortest decimal digits of a double

Every real number within half a unit of a double reads back as that double.
`shortest` gives the fewest decimal digits of a number in that interval and, of
the numbers with that many digits, the one nearest to the double. All
arithmetic is exact: a positive double is `significand * 2 ^ exponent`, and a
grid of decimals `c * 10 ^ k` is searched for a member of the interval, from
coarse grids to fine ones.
-/

namespace Scriptlet

namespace Number

/-- The positive double `significand * 2 ^ exponent`. Below a power of two, the
double before it is only half as far away. -/
structure Binary where
  significand : Nat
  exponent : Int
  isPowerOfTwo : Bool
deriving DecidableEq, Repr

namespace Binary

/-- The parts of the magnitude of a finite double, from its bits. -/
def ofBits (bits : UInt64) : Binary :=
  let fraction := bits.toNat % Nat.pow 2 52
  let biased : Nat := bits.toNat / Nat.pow 2 52 % Nat.pow 2 11
  if biased = 0 then ⟨fraction, -1074, false⟩
  else ⟨Nat.pow 2 52 + fraction, Int.ofNat biased - 1075, fraction = 0 && 1 < biased⟩

/-- The interval of reals that read back as a double, on a grid: the value is
`mid / unit` steps of the grid, and the ends are `low / unit` and
`high / unit`. -/
structure OnGrid where
  low : Nat
  mid : Nat
  high : Nat
  unit : Nat
  closed : Bool

/-- A double on the grid of multiples of `10 ^ k`. -/
def onGrid (b : Binary) (k : Int) : OnGrid :=
  -- a quarter unit of the significand is the common measure of the three ends
  let scale := Nat.pow 2 (b.exponent - 2).toNat * Nat.pow 10 (-k).toNat
  { low := (4 * b.significand - if b.isPowerOfTwo then 1 else 2) * scale
    mid := 4 * b.significand * scale
    high := (4 * b.significand + 2) * scale
    unit := Nat.pow 2 (2 - b.exponent).toNat * Nat.pow 10 k.toNat
    closed := b.significand % 2 = 0 }

def OnGrid.contains (g : OnGrid) (c : Nat) : Bool :=
  if g.closed then g.low ≤ c * g.unit && c * g.unit ≤ g.high
  else g.low < c * g.unit && c * g.unit < g.high

/-- The grid point nearest to the value, among those of the interval. -/
def OnGrid.nearest? (g : OnGrid) : Option Nat :=
  let c := g.mid / g.unit
  match g.contains c, g.contains (c + 1) with
  | false, false => none
  | true, false => some c
  | false, true => some (c + 1)
  | true, true =>
      let below := g.mid - c * g.unit
      let above := (c + 1) * g.unit - g.mid
      if below < above || (below = above && c % 2 = 0) then some c else some (c + 1)

/-- The decimal exponent of the first digit. -/
def leadingExponent (b : Binary) : Int :=
  let num := b.significand * Nat.pow 2 b.exponent.toNat
  let den := Nat.pow 2 (-b.exponent).toNat
  if den ≤ num then (Nat.toDigits 10 (num / den)).length - 1
  else -((Nat.toDigits 10 ((den + num - 1) / num - 1)).length : Int)

/-- The first grid with a member of the interval, searched from the coarse grid
with exponent `k` on. -/
def search (b : Binary) : Nat → Int → Nat × Int
  | 0, k => (((b.onGrid k).nearest?).getD 0, k)
  | n + 1, k =>
      match (b.onGrid k).nearest? with
      | some c => (c, k)
      | none => search b n (k - 1)

end Binary

/-- Decimal digits without trailing zeros, and the exponent of the first one. -/
structure Digits where
  digits : Text
  exponent : Int
deriving DecidableEq, Repr

/-- Takes zeros off the end of a run of digits. -/
def trimZeros (ds : Text) : Text := (ds.reverse.dropWhile (· == Byte.zero)).reverse

/-- The shortest digits of the magnitude of a finite double other than zero.
Seventeen digits always suffice. -/
def shortest (bits : UInt64) : Digits :=
  let b := Binary.ofBits bits
  let (c, k) := b.search 17 b.leadingExponent
  let ds := Text.ofNat c
  ⟨trimZeros ds, k + ds.length - 1⟩

/-! ## Layout -/

/-- How a double is written: positionally while the exponent of its first digit
is in the range from `leastPlain` up to `plainBelow`, and with an exponent of
at least `exponentDigits` digits otherwise. -/
structure Layout where
  leastPlain : Int
  plainBelow : Int
  exponentDigits : Nat

/-- Digits with the decimal point at its place. -/
def positional (d : Digits) : Text :=
  match d.exponent with
  | .ofNat n =>
      let whole := d.digits.take (n + 1)
      let fraction := d.digits.drop (n + 1)
      whole ++ List.replicate (n + 1 - whole.length) Byte.zero
        ++ (if fraction.isEmpty then [] else Byte.dot :: fraction)
  | .negSucc n => text "0." ++ List.replicate n Byte.zero ++ d.digits

/-- Digits with the point behind the first one, and an exponent. -/
def scientific (exponentDigits : Nat) (d : Digits) : Text :=
  let exponent := Text.ofNat d.exponent.natAbs
  d.digits.take 1
    ++ (if d.digits.length ≤ 1 then [] else Byte.dot :: d.digits.drop 1)
    ++ text (if d.exponent < 0 then "e-" else "e+")
    ++ List.replicate (exponentDigits - exponent.length) Byte.zero ++ exponent

def Layout.digits (n : Layout) (d : Digits) : Text :=
  if n.leastPlain ≤ d.exponent && d.exponent < n.plainBelow then positional d
  else scientific n.exponentDigits d

/-- A double in the given notation. -/
def Layout.render (n : Layout) (x : Float) : Text :=
  let sign := if x.toBits.toNat / Nat.pow 2 63 = 1 then text "-" else []
  if x.isNaN then text "NaN"
  else if x.isInf then (if sign.isEmpty then text "+Inf" else text "-Inf")
  else if x.toBits.toNat % Nat.pow 2 63 = 0 then sign ++ text "0"
  else sign ++ n.digits (shortest x.toBits)

end Number

end Scriptlet
