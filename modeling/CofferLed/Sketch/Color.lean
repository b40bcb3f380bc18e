import CofferLed.Core.Arithmetic
import CofferLed.Library.Bytes
import Mathlib.Tactic.Ring

/-! `struct Color`: four bytes in one 32-bit value.

The references `r`, `g`, `b` and `a` of the source are the bytes of `val` in the order
of memory, lowest first. A packed colour `0xRRGGBB` therefore has its red in `b` and
its blue in `r`; the firmware only ever treats the bytes alike, so nothing comes of it.
Here bytes are numbered, and `red`, `green` and `blue` name those of the packed
colour. -/
namespace CofferLed.Sketch
open Library CofferLed.Core

structure Color where
  val : BitVec 32
  deriving DecidableEq, Repr

namespace Color

instance : Inhabited Color := ⟨⟨0⟩⟩

/-- `reinterpret_cast<uint8_t *>(&val)[i]`. -/
def byte (c : Color) (i : Nat) : BitVec 8 := byteOf c.val i

def red (c : Color) : BitVec 8 := c.byte 2
def green (c : Color) : BitVec 8 := c.byte 1
def blue (c : Color) : BitVec 8 := c.byte 0

/-- The colour with the given bytes, lowest first. -/
def ofBytes (r g b a : BitVec 8) : Color := ⟨wordOf r g b a⟩

/-- `for (uint8_t i = 0; i < sizeof(uint32_t); ++i) resVal[i] = f(i)`. -/
def eachByte (f : Nat → Exec (BitVec 8)) : Exec Color := do
  let r ← f 0
  let g ← f 1
  let b ← f 2
  let a ← f 3
  pure (ofBytes r g b a)

/-- One round of `operator*=`. -/
def scaleByte (resVal : BitVec 8) (scalar : ℚ) : Exec (BitVec 8) := do
  let scaledVal ← round (resVal.toNat * scalar)
  let scaledVal := if scaledVal < 0 then 0 else scaledVal
  let scaledVal := if scaledVal > 255 then 255 else scaledVal
  toUint8 scaledVal

/-- `operator*=`. -/
def mulAssign (c : Color) (scalar : ℚ) : Exec Color :=
  eachByte fun i => scaleByte (c.byte i) scalar

/-- One round of `interpolate`, with the weight already limited. -/
def interpolateByte (lhsVal rhsVal : BitVec 8) (percent : ℚ) : Exec (BitVec 8) := do
  let interpolated : ℚ := lhsVal.toNat + percent * rhsVal.toNat - percent * lhsVal.toNat
  let interpolated := if interpolated < 0 then 0 else interpolated
  let interpolated := if interpolated > 255 then 255 else interpolated
  let rounded ← round interpolated
  toUint8 rounded

def interpolate (lhs rhs : Color) (percent : ℚ) : Exec Color :=
  let percent := if percent < 0 then 0 else percent
  let percent := if percent > 1 then 1 else percent
  eachByte fun i => interpolateByte (lhs.byte i) (rhs.byte i) percent

/-! ### Bytes -/

theorem byte_ofBytes (r g b a : BitVec 8) :
    (ofBytes r g b a).byte 0 = r ∧ (ofBytes r g b a).byte 1 = g ∧
      (ofBytes r g b a).byte 2 = b ∧ (ofBytes r g b a).byte 3 = a := byteOf_wordOf r g b a

/-- A colour is its bytes. -/
theorem ext_bytes {c d : Color} (h : ∀ i, i < 4 → c.byte i = d.byte i) : c = d := by
  obtain ⟨c⟩ := c
  obtain ⟨d⟩ := d
  exact congrArg Color.mk (ext_byteOf h)

theorem eachByte_byte (f : Nat → Exec (BitVec 8)) (i : Nat) (h : i < 4) :
    (eachByte f).val.byte i = (f i).val := by
  show (ofBytes (f 0).val (f 1).val (f 2).val (f 3).val).byte i = _
  obtain ⟨r, g, b, a⟩ := byte_ofBytes (f 0).val (f 1).val (f 2).val (f 3).val
  match i with
  | 0 => exact r
  | 1 => exact g
  | 2 => exact b
  | 3 => exact a

theorem eachByte_safe (f : Nat → Exec (BitVec 8)) (h : ∀ i, i < 4 → (f i).Safe) :
    (eachByte f).Safe := by
  simp [eachByte, h]

/-! ### Scaling -/

theorem scaled_bounds (v : BitVec 8) {scalar : ℚ} (nonneg : 0 ≤ scalar) (le : scalar ≤ 1) :
    0 ≤ (v.toNat : ℚ) * scalar ∧ (v.toNat : ℚ) * scalar ≤ 255 := by
  have hv := byte_le v
  exact ⟨mul_nonneg (Nat.cast_nonneg _) nonneg, by nlinarith⟩

/-- A byte is scaled to the nearest value, halves up, as long as the scalar does not
brighten. -/
theorem scaleByte_val (v : BitVec 8) {scalar : ℚ} (nonneg : 0 ≤ scalar) (le : scalar ≤ 1) :
    ((scaleByte v scalar).val.toNat : ℤ) = ⌊(v.toNat : ℚ) * scalar + 1 / 2⌋ := by
  obtain ⟨scaled, bound⟩ := scaled_bounds v nonneg le
  obtain ⟨low, high⟩ :=
    floor_byte (x := (v.toNat : ℚ) * scalar + 1 / 2) (by linarith) (by linarith)
  simp only [scaleByte, Checked.val_bind, toUint8_val, round_val scaled]
  rw [if_neg (not_lt.mpr low), if_neg (not_lt.mpr high), ofInt_toNat low high]

theorem scaleByte_safe (v : BitVec 8) {scalar : ℚ} (nonneg : 0 ≤ scalar) (le : scalar ≤ 1) :
    (scaleByte v scalar).Safe := by
  obtain ⟨scaled, bound⟩ := scaled_bounds v nonneg le
  rw [scaleByte, Checked.safe_bind]
  refine ⟨round_safe scaled (by linarith), ?_⟩
  rw [toUint8_safe]
  split <;> split <;> omega

theorem mulAssign_byte (c : Color) (scalar : ℚ) (i : Nat) (h : i < 4) :
    (c.mulAssign scalar).val.byte i = (scaleByte (c.byte i) scalar).val :=
  eachByte_byte _ i h

theorem mulAssign_safe (c : Color) {scalar : ℚ} (nonneg : 0 ≤ scalar) (le : scalar ≤ 1) :
    (c.mulAssign scalar).Safe :=
  eachByte_safe _ fun i _ => scaleByte_safe (c.byte i) nonneg le

/-! ### Interpolation -/

/-- The weight `interpolate` works with. -/
def limited (percent : ℚ) : ℚ := max 0 (min percent 1)

theorem limited_nonneg (percent : ℚ) : 0 ≤ limited percent := le_max_left _ _

theorem limited_le_one (percent : ℚ) : limited percent ≤ 1 :=
  max_le zero_le_one (min_le_right _ _)

theorem limited_mono {p q : ℚ} (h : p ≤ q) : limited p ≤ limited q :=
  max_le_max_left 0 (min_le_min_right 1 h)

/-- The value between two bytes at a weight. -/
def between (a b : BitVec 8) (w : ℚ) : ℚ := a.toNat + w * b.toNat - w * a.toNat

theorem between_bounds (a b : BitVec 8) {w : ℚ} (nonneg : 0 ≤ w) (le : w ≤ 1) :
    0 ≤ between a b w ∧ between a b w ≤ 255 := by
  have ha := byte_le a
  have hb := byte_le b
  have a0 : (0 : ℚ) ≤ a.toNat := Nat.cast_nonneg _
  have b0 : (0 : ℚ) ≤ b.toNat := Nat.cast_nonneg _
  have split_weight : between a b w = (1 - w) * a.toNat + w * b.toNat := by
    unfold between
    ring
  rw [split_weight]
  constructor <;> nlinarith

/-- Towards the greater byte the value grows with the weight, towards the lesser it falls. -/
theorem between_weight_mono {a b : BitVec 8} {v w : ℚ} (h : a.toNat ≤ b.toNat) (le : v ≤ w) :
    between a b v ≤ between a b w := by
  have h : (a.toNat : ℚ) ≤ b.toNat := by exact_mod_cast h
  unfold between
  nlinarith

theorem between_weight_anti {a b : BitVec 8} {v w : ℚ} (h : b.toNat ≤ a.toNat) (le : v ≤ w) :
    between a b w ≤ between a b v := by
  have h : (b.toNat : ℚ) ≤ a.toNat := by exact_mod_cast h
  unfold between
  nlinarith

theorem interpolateByte_val (a b : BitVec 8) {w : ℚ} (nonneg : 0 ≤ w) (le : w ≤ 1) :
    ((interpolateByte a b w).val.toNat : ℤ) = ⌊between a b w + 1 / 2⌋ := by
  obtain ⟨low, high⟩ := between_bounds a b nonneg le
  obtain ⟨floor_low, floor_high⟩ :=
    floor_byte (x := between a b w + 1 / 2) (by linarith) (by linarith)
  have value : (interpolateByte a b w).val = BitVec.ofInt 8 ⌊between a b w + 1 / 2⌋ := by
    rw [← round_val low]
    simp only [interpolateByte, Checked.val_bind, toUint8_val]
    unfold between at low high ⊢
    rw [if_neg (not_lt.mpr low), if_neg (not_lt.mpr high)]
  rw [value, ofInt_toNat floor_low floor_high]

theorem interpolateByte_safe (a b : BitVec 8) {w : ℚ} (nonneg : 0 ≤ w) (le : w ≤ 1) :
    (interpolateByte a b w).Safe := by
  obtain ⟨low, high⟩ := between_bounds a b nonneg le
  obtain ⟨floor_low, floor_high⟩ :=
    floor_byte (x := between a b w + 1 / 2) (by linarith) (by linarith)
  have rounded := round_val low
  have safe := round_safe low (by linarith)
  simp only [interpolateByte, Checked.safe_bind, toUint8_safe]
  unfold between at low high rounded safe floor_low floor_high
  rw [if_neg (not_lt.mpr low), if_neg (not_lt.mpr high), rounded]
  exact ⟨safe, floor_low, floor_high⟩

theorem interpolate_eq (a b : Color) (percent : ℚ) :
    a.interpolate b percent =
      eachByte fun i => interpolateByte (a.byte i) (b.byte i) (limited percent) := by
  have weight : (if (if percent < 0 then 0 else percent) > 1 then 1
      else if percent < 0 then 0 else percent) = limited percent := by
    unfold limited
    rcases lt_trichotomy percent 0 with neg | rfl | pos
    · rw [if_pos neg, if_neg (by norm_num), min_eq_left (by linarith), max_eq_left neg.le]
    · norm_num
    · rw [if_neg (not_lt.mpr pos.le)]
      by_cases beyond : percent > 1
      · rw [if_pos beyond, min_eq_right beyond.le, max_eq_right zero_le_one]
      · rw [if_neg beyond, min_eq_left (not_lt.mp beyond), max_eq_right pos.le]
  rw [interpolate, weight]

/-- Each byte of an interpolated colour, halves rounded up. -/
theorem interpolate_byte (a b : Color) (percent : ℚ) (i : Nat) (h : i < 4) :
    (((a.interpolate b percent).val.byte i).toNat : ℤ) =
      ⌊between (a.byte i) (b.byte i) (limited percent) + 1 / 2⌋ := by
  rw [interpolate_eq, eachByte_byte _ i h]
  exact interpolateByte_val _ _ (limited_nonneg percent) (limited_le_one percent)

theorem interpolate_safe (a b : Color) (percent : ℚ) : (a.interpolate b percent).Safe := by
  rw [interpolate_eq]
  exact eachByte_safe _ fun i _ =>
    interpolateByte_safe _ _ (limited_nonneg percent) (limited_le_one percent)

end Color

end CofferLed.Sketch
