import Difacto.Lib.Bytes
import Mathlib.Data.Rat.Floor
import Mathlib.Data.Nat.Log
import Mathlib.Algebra.Order.Field.Power
import Mathlib.Tactic.Positivity
import Mathlib.Tactic.Ring

/-!
# Single precision numbers

The program computes in `float`. Its model is generic in the number type: `FloatLike`
lists the operations it uses, with `0 == 0` as the only law. `Binary32` is the instance for the
source's own type, IEEE 754 single precision with rounding to nearest, ties to even;
the runs that are evaluated below use it. A `NaN` result is the one quiet `NaN`.

## Main definitions

* `FloatLike` — the operations.
* `Binary32` — bit patterns; `Binary32.round` — the nearest of them.

## Main results

* `Binary32.value_ofRat_natCast` — natural numbers up to `2 ^ 24` are exact.
-/

namespace Difacto.Base

open Lib

/-- The operations on `float` that the program uses. -/
class FloatLike (F : Type) extends Zero F, One F, Add F, Sub F, Mul F, Div F, Neg F, BEq F, LE F,
    LT F where
  decidableLE : DecidableLE F
  decidableLT : DecidableLT F
  sqrt : F → F
  /-- `(unsigned) x` -/
  toUnsigned : F → UInt32
  /-- `std::to_string(x)` -/
  toStr : F → String
  zero_beq_zero : ((0 : F) == 0) = true

instance FloatLike.instDecidableLE (F : Type) [FloatLike F] : DecidableLE F := FloatLike.decidableLE

instance FloatLike.instDecidableLT (F : Type) [FloatLike F] : DecidableLT F := FloatLike.decidableLT

/-- A single precision number, by its bits. -/
structure Binary32 where
  bits : UInt32
  deriving DecidableEq, Repr

namespace Binary32

/-- The sign bit is set. -/
def sign (x : Binary32) : Bool := decide (2 ^ 31 ≤ x.bits.toNat)

/-- Exponent and fraction fields. -/
def magnitude (x : Binary32) : ℕ := x.bits.toNat % 2 ^ 31

def exponent (x : Binary32) : ℕ := x.magnitude / 2 ^ 23

def fraction (x : Binary32) : ℕ := x.magnitude % 2 ^ 23

def isNaN (x : Binary32) : Bool := decide (255 * 2 ^ 23 < x.magnitude)

def isInf (x : Binary32) : Bool := decide (x.magnitude = 255 * 2 ^ 23)

def isZero (x : Binary32) : Bool := decide (x.magnitude = 0)

/-- The bits with the given sign. -/
def ofMagnitude (s : Bool) (n : ℕ) : Binary32 := ⟨UInt32.ofNat (s.toNat * 2 ^ 31 + n)⟩

def nan : Binary32 := ⟨0x7fc00000⟩

def inf (s : Bool) : Binary32 := ofMagnitude s (255 * 2 ^ 23)

def zero (s : Bool) : Binary32 := ofMagnitude s 0

/-- The absolute value of a finite number. -/
def absValue (x : Binary32) : ℚ :=
  if x.exponent = 0 then x.fraction * (2 : ℚ) ^ (-149 : ℤ)
  else (2 ^ 23 + x.fraction) * (2 : ℚ) ^ ((x.exponent : ℤ) - 150)

/-- The value of a finite number. -/
def value (x : Binary32) : ℚ := if x.sign then -x.absValue else x.absValue

/-- The nearest natural number, ties to even. -/
def nearest (q : ℚ) : ℕ :=
  let n := ⌊q⌋.toNat
  if q - n < 1 / 2 then n
  else if 1 / 2 < q - n then n + 1
  else if n % 2 = 0 then n
  else n + 1

/-- The binary exponent of a positive rational. -/
def log2 (q : ℚ) : ℤ :=
  let e : ℤ := (Nat.log2 q.num.toNat : ℤ) - Nat.log2 q.den
  if (2 : ℚ) ^ e ≤ q then e else e - 1

/-- The number nearest to `±q`, for `q ≥ 0`. -/
def round (s : Bool) (q : ℚ) : Binary32 :=
  if q = 0 then zero s
  else
    let e := max (log2 q) (-126)
    let n := (e + 126).toNat * 2 ^ 23 + nearest (q / (2 : ℚ) ^ (e - 23))
    if n < 255 * 2 ^ 23 then ofMagnitude s n else inf s

/-- The number nearest to `q`; `s` is the sign of a zero. -/
def ofRat (s : Bool) (q : ℚ) : Binary32 :=
  if q = 0 then zero s else round (decide (q < 0)) |q|

def neg (x : Binary32) : Binary32 := ofMagnitude (!x.sign) x.magnitude

def add (x y : Binary32) : Binary32 :=
  if x.isNaN || y.isNaN then nan
  else if x.isInf then if y.isInf && (x.sign != y.sign) then nan else x
  else if y.isInf then y
  else ofRat (x.sign && y.sign) (x.value + y.value)

def mul (x y : Binary32) : Binary32 :=
  let s := x.sign != y.sign
  if x.isNaN || y.isNaN then nan
  else if x.isInf || y.isInf then if x.isZero || y.isZero then nan else inf s
  else round s (x.absValue * y.absValue)

def div (x y : Binary32) : Binary32 :=
  let s := x.sign != y.sign
  if x.isNaN || y.isNaN || (x.isInf && y.isInf) || (x.isZero && y.isZero) then nan
  else if x.isInf || y.isZero then inf s
  else if y.isInf then zero s
  else round s (x.absValue / y.absValue)

/-- The root is exact or strictly between two multiples of `2 ^ (-120)`, far below half
a unit in the last place. -/
def sqrt (x : Binary32) : Binary32 :=
  if x.isNaN || x.isZero then x
  else if x.sign then nan
  else if x.isInf then x
  else
    let n := ⌊x.absValue * 2 ^ 240⌋.toNat
    let r := Nat.sqrt n
    round false ((if r * r = n then (r : ℚ) else r + 1 / 2) / 2 ^ 120)

/-- Numbers that are not `NaN` compare like these. -/
def key (x : Binary32) : ℤ := if x.sign then -x.magnitude else x.magnitude

def lt (x y : Binary32) : Prop := x.isNaN = false ∧ y.isNaN = false ∧ x.key < y.key

def le (x y : Binary32) : Prop := x.isNaN = false ∧ y.isNaN = false ∧ x.key ≤ y.key

/-- Truncation; the result of a conversion that does not fit is unspecified. -/
def toUnsigned (x : Binary32) : UInt32 := UInt32.ofNat ⌊x.absValue⌋.toNat

/-- The format `%f`: six decimals. -/
def toStr (x : Binary32) : String :=
  let s := if x.sign then "-" else ""
  if x.isNaN then s ++ "nan"
  else if x.isInf then s ++ "inf"
  else
    let n := nearest (x.absValue * 10 ^ 6)
    let decimals := toString (n % 10 ^ 6)
    s ++ toString (n / 10 ^ 6) ++ "." ++
      String.ofList (List.replicate (6 - decimals.length) '0') ++ decimals

instance : FloatLike Binary32 where
  zero := ⟨0⟩
  one := ⟨0x3f800000⟩
  add := add
  sub x y := add x (neg y)
  mul := mul
  div := div
  neg := neg
  beq x y := !x.isNaN && !y.isNaN && decide (x.key = y.key)
  le := le
  lt := lt
  decidableLE _ _ := inferInstanceAs (Decidable (_ ∧ _))
  decidableLT _ _ := inferInstanceAs (Decidable (_ ∧ _))
  sqrt := sqrt
  toUnsigned := toUnsigned
  toStr := toStr
  zero_beq_zero := by decide

instance : FixedBytes Binary32 where
  width := 4
  toBytes x := leBytes 4 x.bits.toNat
  ofBytes bs := ⟨UInt32.ofNat (ofLeBytes bs)⟩

instance : LawfulFixedBytes Binary32 where
  length_toBytes x := length_leBytes 4 x.bits.toNat
  ofBytes_toBytes x := by
    have hlt : x.bits.toNat < 256 ^ 4 := x.bits.toNat_lt
    simp only [FixedBytes.ofBytes, FixedBytes.toBytes, ofLeBytes_leBytes hlt, UInt32.ofNat_toNat]

/-! ## Natural numbers -/

theorem nearest_natCast (n : ℕ) : nearest (n : ℚ) = n := by
  simp [nearest]

theorem log2_natCast {n : ℕ} (hn : n ≠ 0) : log2 (n : ℚ) = Nat.log2 n := by
  have hle : (2 : ℚ) ^ ((Nat.log2 n : ℕ) : ℤ) ≤ n := by
    rw [zpow_natCast]
    exact_mod_cast Nat.log2_self_le hn
  have hden : ((Nat.log2 (n : ℚ).num.toNat : ℕ) : ℤ) - (Nat.log2 (n : ℚ).den : ℕ) =
      (Nat.log2 n : ℕ) := by
    simp [show Nat.log2 1 = 0 from rfl]
  simp only [log2]
  split
  · exact hden
  · next hlt => exact absurd (hden ▸ hle) hlt

/-- What the fields of a number with exponent field `e` and fraction `f` are. -/
theorem value_ofMagnitude {e f : ℕ} (he : 0 < e) (he' : e < 255) (hf : f < 2 ^ 23) :
    (ofMagnitude false (e * 2 ^ 23 + f)).value =
      (2 ^ 23 + f) * (2 : ℚ) ^ ((e : ℤ) - 150) := by
  have hbits : (ofMagnitude false (e * 2 ^ 23 + f)).bits.toNat = e * 2 ^ 23 + f := by
    rw [ofMagnitude, UInt32.toNat_ofNat', Nat.mod_eq_of_lt]
    · simp
    · simp
      omega
  have hsign : (ofMagnitude false (e * 2 ^ 23 + f)).sign = false := by
    rw [sign, hbits]
    exact decide_eq_false (by omega)
  have hmag : (ofMagnitude false (e * 2 ^ 23 + f)).magnitude = e * 2 ^ 23 + f := by
    rw [magnitude, hbits]
    omega
  have hexp : (ofMagnitude false (e * 2 ^ 23 + f)).exponent = e := by
    rw [exponent, hmag]
    omega
  have hfrac : (ofMagnitude false (e * 2 ^ 23 + f)).fraction = f := by
    rw [fraction, hmag]
    omega
  rw [value, hsign, absValue, hexp, hfrac, if_neg he.ne']
  simp

theorem log2_le {n : ℕ} (hzero : n ≠ 0) (hn : n ≤ 2 ^ 24) : Nat.log2 n ≤ 24 := by
  by_contra hlog
  have h₁ := Nat.log2_self_le hzero
  have h₂ : 2 ^ 25 ≤ 2 ^ Nat.log2 n := Nat.pow_le_pow_right (by decide) (by omega)
  omega

/-- The significand of a natural number is a natural number. -/
theorem exists_significand {n : ℕ} (hzero : n ≠ 0) (hn : n ≤ 2 ^ 24) :
    ∃ m : ℕ, (n : ℚ) / (2 : ℚ) ^ ((Nat.log2 n : ℤ) - 23) = m ∧ 2 ^ 23 ≤ m ∧ m < 2 ^ 24 := by
  have hlog := log2_le hzero hn
  have hlow := Nat.log2_self_le hzero
  have hhigh := Nat.lt_log2_self (n := n)
  set l := Nat.log2 n with hl
  by_cases hsmall : l ≤ 23
  · have hpow : (2 : ℚ) ^ ((l : ℤ) - 23) = ((2 : ℚ) ^ (23 - l))⁻¹ := by
      rw [← zpow_natCast, ← zpow_neg]
      congr 1
      omega
    refine ⟨n * 2 ^ (23 - l), ?_, ?_, ?_⟩
    · rw [hpow, div_inv_eq_mul]
      push_cast
      rfl
    · calc 2 ^ 23 = 2 ^ l * 2 ^ (23 - l) := by rw [← pow_add]; congr 1; omega
        _ ≤ n * 2 ^ (23 - l) := Nat.mul_le_mul_right _ hlow
    · calc n * 2 ^ (23 - l) < 2 ^ (l + 1) * 2 ^ (23 - l) :=
            Nat.mul_lt_mul_of_pos_right hhigh (by positivity)
        _ = 2 ^ 24 := by rw [← pow_add]; congr 1; omega
  · have h24 : l = 24 := by omega
    have hn24 : n = 2 ^ 24 := by
      rw [h24] at hlow
      omega
    refine ⟨2 ^ 23, ?_, le_rfl, by decide⟩
    rw [h24, hn24]
    norm_num

/-- **Natural numbers up to `2 ^ 24`** are converted exactly. -/
theorem value_ofRat_natCast {n : ℕ} (hn : n ≤ 2 ^ 24) : (ofRat false (n : ℚ)).value = n := by
  by_cases hzero : n = 0
  · subst hzero
    decide +kernel
  · have hlog := log2_le hzero hn
    obtain ⟨m, hm, hm₁, hm₂⟩ := exists_significand hzero hn
    set l := Nat.log2 n with hl
    have hq : (n : ℚ) ≠ 0 := Nat.cast_ne_zero.mpr hzero
    have he : max (log2 (n : ℚ)) (-126) = l := by
      rw [log2_natCast hzero, ← hl]
      omega
    have hround : ofRat false (n : ℚ) = ofMagnitude false ((l + 127) * 2 ^ 23 + (m - 2 ^ 23)) := by
      have hsum : ((l : ℤ) + 126).toNat * 2 ^ 23 + m = (l + 127) * 2 ^ 23 + (m - 2 ^ 23) := by
        omega
      have hneg : decide ((n : ℚ) < 0) = false := decide_eq_false (not_lt.mpr (by positivity))
      rw [ofRat, if_neg hq, hneg, Nat.abs_cast, round, if_neg hq]
      simp only [he, hm, nearest_natCast, hsum]
      rw [if_pos (by omega)]
    rw [hround, value_ofMagnitude (by omega) (by omega) (by omega), Nat.cast_sub hm₁]
    have hexp : (((l + 127 : ℕ) : ℤ) - 150) = (l : ℤ) - 23 := by omega
    rw [hexp]
    rw [div_eq_iff (by positivity)] at hm
    rw [hm]
    push_cast
    ring

end Binary32

end Difacto.Base
