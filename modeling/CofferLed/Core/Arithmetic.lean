import CofferLed.Library.Checked
import Mathlib.Data.Rat.Floor
import Mathlib.Tactic.Linarith

/-! The arithmetic of the firmware: conversions, the `round` macro of `Arduino.h` and the
two functions called `map`.

Floats are read as exact rationals and integers as unbounded ones. Where the machine
would do something else (a value that does not fit the type it is converted to, a
product past the width of its type, a division by zero) a check is logged. -/
namespace CofferLed.Core
open Library

/-- What the machine leaves undefined, or does differently on its own integers. -/
inductive Fault where
  | index
  | conversion
  | overflow
  | division
  deriving DecidableEq, Repr

abbrev Exec (α : Type) := Checked Fault α

/-! ### Conversions -/

/-- A float converted to an integer loses its fraction. -/
def trunc (x : ℚ) : ℤ := if 0 ≤ x then ⌊x⌋ else ⌈x⌉

/-- `(long)x`. -/
def toLong (x : ℚ) : Exec ℤ := do
  Checked.require (-2 ^ 31 ≤ trunc x ∧ trunc x < 2 ^ 31) .conversion
  pure (trunc x)

/-- An integer as `uint8_t`. -/
def toUint8 (z : ℤ) : Exec (BitVec 8) := do
  Checked.require (0 ≤ z ∧ z ≤ 255) .conversion
  pure (BitVec.ofInt 8 z)

/-- A float as `uint8_t`. -/
def floatToUint8 (x : ℚ) : Exec (BitVec 8) := do
  Checked.require (0 ≤ x ∧ x ≤ 255) .conversion
  pure (BitVec.ofInt 8 (trunc x))

/-- A float as `uint16_t`. -/
def floatToUint16 (x : ℚ) : Exec Nat := do
  Checked.require (0 ≤ x ∧ x ≤ 65535) .conversion
  pure (trunc x).toNat

/-- `#define round(x) ((x)>=0?(long)((x)+0.5):(long)((x)-0.5))` -/
def round (x : ℚ) : Exec ℤ :=
  if 0 ≤ x then toLong (x + 1 / 2) else toLong (x - 1 / 2)

/-! ### Operations of bounded width -/

/-- A sum kept in a `uint16_t`. -/
def addUint16 (a b : Nat) : Exec Nat := do
  Checked.require (a + b < 2 ^ 16) .overflow
  pure (a + b)

/-- A product of two non-negative `int`s, which are 16 bits wide. -/
def mulInt (a b : Nat) : Exec Nat := do
  Checked.require (a * b < 2 ^ 15) .overflow
  pure (a * b)

def divide (x y : ℚ) : Exec ℚ := do
  Checked.require (y ≠ 0) .division
  pure (x / y)

/-! ### `map` -/

/-- The template of `Sketch.cpp`, at floats. -/
def mapFloat (val inRangeMin inRangeMax outRangeMin outRangeMax : ℚ) : Exec ℚ := do
  let q ← divide ((val - inRangeMin) * (outRangeMax - outRangeMin)) (inRangeMax - inRangeMin)
  pure (q + outRangeMin)

/-- `long map(long, long, long, long, long)` of `WMath.cpp`: 32-bit integers, and the
division of C, which rounds toward zero. -/
def mapLong (x inMin inMax outMin outMax : ℤ) : Exec ℤ := do
  let product := (x - inMin) * (outMax - outMin)
  Checked.require (-2 ^ 31 ≤ product ∧ product < 2 ^ 31) .overflow
  Checked.require (inMax - inMin ≠ 0) .division
  pure (product.tdiv (inMax - inMin) + outMin)

/-! ### What they compute -/

theorem trunc_of_nonneg {x : ℚ} (h : 0 ≤ x) : trunc x = ⌊x⌋ := if_pos h

/-- Rounding of a non-negative value is rounding half up. -/
theorem round_val {x : ℚ} (h : 0 ≤ x) : (round x).val = ⌊x + 1 / 2⌋ := by
  have : (round x).val = trunc (x + 1 / 2) := by
    rw [round, if_pos h]
    rfl
  rw [this, trunc_of_nonneg (by linarith)]

theorem round_safe {x : ℚ} (h : 0 ≤ x) (small : x < 2 ^ 30) : (round x).Safe := by
  have nonneg : (0 : ℤ) ≤ ⌊x + 1 / 2⌋ := Int.floor_nonneg.mpr (by linarith)
  have lt : ⌊x + 1 / 2⌋ < 2 ^ 31 := by
    rw [Int.floor_lt]
    push_cast
    linarith
  have : round x = toLong (x + 1 / 2) := if_pos h
  rw [this, toLong, Checked.safe_bind]
  refine ⟨(Checked.safe_require _ _).mpr ?_, Checked.safe_pure _⟩
  rw [trunc_of_nonneg (by linarith)]
  omega

@[simp] theorem toUint8_val (z : ℤ) : (toUint8 z).val = BitVec.ofInt 8 z := rfl

@[simp] theorem toUint8_safe (z : ℤ) : (toUint8 z).Safe ↔ 0 ≤ z ∧ z ≤ 255 := by
  simp [toUint8]

@[simp] theorem floatToUint8_val (x : ℚ) : (floatToUint8 x).val = BitVec.ofInt 8 (trunc x) := rfl

@[simp] theorem floatToUint8_safe (x : ℚ) : (floatToUint8 x).Safe ↔ 0 ≤ x ∧ x ≤ 255 := by
  simp [floatToUint8]

@[simp] theorem floatToUint16_val (x : ℚ) : (floatToUint16 x).val = (trunc x).toNat := rfl

@[simp] theorem floatToUint16_safe (x : ℚ) : (floatToUint16 x).Safe ↔ 0 ≤ x ∧ x ≤ 65535 := by
  simp [floatToUint16]

@[simp] theorem addUint16_val (a b : Nat) : (addUint16 a b).val = a + b := rfl

@[simp] theorem addUint16_safe (a b : Nat) : (addUint16 a b).Safe ↔ a + b < 2 ^ 16 := by
  simp [addUint16]

@[simp] theorem mulInt_val (a b : Nat) : (mulInt a b).val = a * b := rfl

@[simp] theorem mulInt_safe (a b : Nat) : (mulInt a b).Safe ↔ a * b < 2 ^ 15 := by
  simp [mulInt]

@[simp] theorem divide_val (x y : ℚ) : (divide x y).val = x / y := rfl

@[simp] theorem divide_safe (x y : ℚ) : (divide x y).Safe ↔ y ≠ 0 := by
  simp [divide]

/-! ### The range of a byte -/

theorem byte_le (v : BitVec 8) : (v.toNat : ℚ) ≤ 255 := by
  exact_mod_cast Nat.le_of_lt_succ v.isLt

theorem floor_byte {x : ℚ} (low : 0 ≤ x) (high : x < 256) : 0 ≤ ⌊x⌋ ∧ ⌊x⌋ ≤ 255 := by
  refine ⟨Int.floor_nonneg.mpr low, ?_⟩
  rw [← Int.lt_add_one_iff, Int.floor_lt]
  push_cast
  linarith

/-- A byte that is converted from its own value. -/
theorem ofInt_toNat {z : ℤ} (nonneg : 0 ≤ z) (le : z ≤ 255) :
    ((BitVec.ofInt 8 z).toNat : ℤ) = z := by
  rw [BitVec.toNat_ofInt]
  omega

end CofferLed.Core
