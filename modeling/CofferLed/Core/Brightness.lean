import CofferLed.Core.NeoPixel
import CofferLed.Library.Runs

/-! A strip below full brightness.

The sketch keeps its strip at full brightness and scales the colours itself. This is what
it would have if it did not: the library stores the colours dimmed, and rescales what is
stored when the brightness changes. No byte is ever above the brightness set, which is also
why the rescaling fits in 16 bits (`brightness_bounds`). -/
namespace CofferLed.Core
open Library

namespace NeoPixel
variable {N : Nat}

def getBrightness (p : NeoPixel N) : BitVec 8 := p.brightness - 1

def clear (p : NeoPixel N) : NeoPixel N := {p with pixels := Vector.replicate (3 * N) 0}

/-- `first` and `count` are `uint16_t`s, and so is `end`, their sum. -/
def fill (p : NeoPixel N) (c : BitVec 32) (first count : BitVec 16) : Exec (NeoPixel N) :=
  if first.toNat ≥ N then pure p
  else
    let last := if count = 0 then N else min (first + count).toNat N
    Checked.forRange (last - first.toNat) (fun k p => p.setPixelColor (first.toNat + k) c) p

inductive Op where
  | setPixelColor (n : Nat) (c : BitVec 32)
  | fill (c : BitVec 32) (first count : BitVec 16)
  | clear
  | setBrightness (b : BitVec 8)

def step : Op → NeoPixel N → NeoPixel N
  | .setPixelColor n c, p => (p.setPixelColor n c).val
  | .fill c first count, p => (p.fill c first count).val
  | .clear, p => p.clear
  | .setBrightness b, p => p.setBrightness b

def after (p : NeoPixel N) (ops : List Op) : NeoPixel N := run step p ops

/-! ### One byte -/

/-- What a colour byte becomes in the memory. -/
def dim (brightness : BitVec 8) (v : Nat) : Nat :=
  if brightness = 0 then v else v * brightness.toNat / 256

theorem brightness_pos {brightness : BitVec 8} (dimmed : brightness ≠ 0) :
    0 < brightness.toNat ∧ (brightness - 1).toNat + 1 = brightness.toNat := by
  have pos : brightness.toNat ≠ 0 := fun zero => dimmed (BitVec.eq_of_toNat_eq zero)
  bv_omega

theorem dim_le (brightness v : BitVec 8) : dim brightness v.toNat ≤ (brightness - 1).toNat := by
  unfold dim
  have byte := v.isLt
  split
  case isTrue full =>
    subst full
    exact Nat.le_of_lt_succ byte
  case isFalse dimmed =>
    obtain ⟨pos, set⟩ := brightness_pos dimmed
    have product : v.toNat * brightness.toNat ≤ 255 * brightness.toNat :=
      Nat.mul_le_mul_right _ (by omega)
    omega

theorem dimmed_val (brightness v : BitVec 8) :
    (dimmed brightness v).val.toNat = dim brightness v.toNat := by
  have le := dim_le brightness v
  have byte := (brightness - 1).isLt
  unfold dimmed
  split
  case isTrue set =>
    rw [dim, if_neg set] at le
    show (BitVec.ofNat 8 ((v.toNat * brightness.toNat) >>> 8)).toNat = _
    rw [dim, if_neg set, BitVec.toNat_ofNat, Nat.shiftRight_eq_div_pow]
    exact Nat.mod_eq_of_lt (Nat.lt_of_le_of_lt le byte)
  case isFalse full => rw [dim, if_pos (not_not.mp full), Checked.val_pure]

/-! ### The memory -/

/-- No byte is above the brightness set. -/
def Bounded (p : NeoPixel N) : Prop := ∀ i, (p.stored i).toNat ≤ p.getBrightness.toNat

theorem setPixelColor_store (p : NeoPixel N) (n : Nat) (h : n < N) (c : BitVec 32) :
    (p.setPixelColor n c).val =
      p.store n (dimmed p.brightness ((c >>> 16).setWidth 8)).val
        (dimmed p.brightness ((c >>> 8).setWidth 8)).val (dimmed p.brightness (c.setWidth 8)).val := by
  rw [setPixelColor, if_pos h]
  rfl

theorem bounded_setPixelColor {p : NeoPixel N} (h : Bounded p) (n : Nat) (c : BitVec 32) :
    Bounded (p.setPixelColor n c).val := by
  intro i
  by_cases inside : n < N
  · have byte (v : BitVec 8) : (dimmed p.brightness v).val.toNat ≤ p.getBrightness.toNat := by
      rw [dimmed_val]
      exact dim_le _ v
    rw [setPixelColor_store p n inside, stored_store p n inside]
    show _ ≤ p.getBrightness.toNat
    split
    · exact byte _
    split
    · exact byte _
    split
    · exact byte _
    · exact h i
  · rw [setPixelColor, if_neg inside]
    exact h i

theorem bounded_fill {p : NeoPixel N} (h : Bounded p) (c : BitVec 32) (first count : BitVec 16) :
    Bounded (p.fill c first count).val := by
  rw [fill, Checked.val_ite]
  split
  · exact h
  · exact Checked.forRange_val (fun _ p => Bounded p)
      (fun k _ p bounded => bounded_setPixelColor bounded _ c) p h

theorem stored_replicate_zero (brightness : BitVec 8) (i : Nat) :
    (⟨brightness, Vector.replicate (3 * N) 0⟩ : NeoPixel N).stored i = 0 := by
  simp only [stored, Vector.getElem?_replicate]
  split <;> rfl

/-- The factor `setBrightness` multiplies by, in 256ths. -/
def scale (oldBrightness b : BitVec 8) : Nat :=
  if oldBrightness = 0 then 0
  else if b = 255 then 65535 / oldBrightness.toNat
  else ((b + 1).toNat * 256 - 1) / oldBrightness.toNat

/-- A byte no higher than the old brightness times the factor: the top byte of the product is no
higher than the new one, so the product fits in 16 bits. -/
theorem scale_le (oldBrightness b : BitVec 8) {v : Nat} (le : v ≤ oldBrightness.toNat) :
    v * scale oldBrightness b < (b.toNat + 1) * 256 := by
  have byte := b.isLt
  have product (top : Nat) : v * (top / oldBrightness.toNat) ≤ top :=
    Nat.le_trans (Nat.mul_le_mul_right _ le) (Nat.mul_div_le _ _)
  unfold scale
  split
  · omega
  split
  case isTrue full =>
    subst full
    exact Nat.lt_succ_of_le (product 65535)
  case isFalse notFull =>
    have next : (b + 1).toNat = b.toNat + 1 := by bv_omega
    have fits := product ((b + 1).toNat * 256 - 1)
    rw [next] at fits ⊢
    omega

/-- The rescaling, without a wrap in the product. -/
theorem setBrightness_stored {p : NeoPixel N} (h : Bounded p) (b : BitVec 8)
    (changed : b ≠ p.getBrightness) (i : Nat) :
    ((p.setBrightness b).stored i).toNat = (p.stored i).toNat * scale p.getBrightness b / 256 := by
  have differ : b + 1 ≠ p.brightness := fun same => changed (by
    rw [getBrightness, ← same]
    bv_omega)
  have fits := scale_le p.getBrightness b (h i)
  have byte := b.isLt
  rw [setBrightness, if_pos differ]
  show ((p.pixels.map _)[i]?.getD (0 : BitVec 8)).toNat = _
  rw [Vector.getElem?_map]
  unfold stored at fits ⊢
  cases cell : p.pixels[i]? with
  | none => simp
  | some v =>
    rw [cell] at fits
    have fits : v.toNat * scale p.getBrightness b < (b.toNat + 1) * 256 := fits
    have unwrapped : v.toNat * scale p.getBrightness b % 2 ^ 16 =
        v.toNat * scale p.getBrightness b := Nat.mod_eq_of_lt (by omega)
    show (BitVec.ofNat 8 ((v.toNat * scale p.getBrightness b % 2 ^ 16) >>> 8)).toNat = _
    rw [unwrapped, BitVec.toNat_ofNat, Nat.shiftRight_eq_div_pow]
    exact Nat.mod_eq_of_lt (by omega)

theorem setBrightness_getBrightness (p : NeoPixel N) (b : BitVec 8) :
    (p.setBrightness b).getBrightness = b := by
  unfold setBrightness
  dsimp only
  split
  · show b + 1 - 1 = b
    bv_omega
  case isFalse same =>
    rw [getBrightness, ← not_not.mp same]
    bv_omega

theorem bounded_setBrightness {p : NeoPixel N} (h : Bounded p) (b : BitVec 8) :
    Bounded (p.setBrightness b) := by
  intro i
  rw [setBrightness_getBrightness]
  by_cases changed : b = p.getBrightness
  · have stays : p.setBrightness b = p := by
      have same : b + 1 = p.brightness := by
        rw [changed, getBrightness]
        bv_omega
      rw [setBrightness, if_neg (not_not.mpr same)]
    rw [stays, changed]
    exact h i
  · have fits := scale_le p.getBrightness b (h i)
    rw [setBrightness_stored h b changed]
    omega

theorem bounded_step (op : Op) (p : NeoPixel N) (h : Bounded p) : Bounded (step op p) := by
  cases op with
  | setPixelColor n c => exact bounded_setPixelColor h n c
  | fill c first count => exact bounded_fill h c first count
  | clear =>
    intro i
    rw [step, clear, stored_replicate_zero]
    exact Nat.zero_le _
  | setBrightness b => exact bounded_setBrightness h b

theorem bounded_run (ops : List Op) : Bounded ((create N).after ops) := by
  refine run_invariant Bounded bounded_step (create N) (fun i => ?_) ops
  rw [create, stored_replicate_zero]
  exact Nat.zero_le _

/-- **No byte is above the brightness set**, whatever was done to the strip. That is what the
rescaling rests on: it multiplies in 16 bits, and no product is too large for them. -/
theorem brightness_bounds (ops : List Op) (b : BitVec 8) (i : Nat) :
    let p := (create N).after ops
    (p.stored i).toNat ≤ p.getBrightness.toNat ∧
      (p.stored i).toNat * scale p.getBrightness b < 2 ^ 16 ∧
      (p.setBrightness b).getBrightness = b ∧
      (b ≠ p.getBrightness →
        ((p.setBrightness b).stored i).toNat = (p.stored i).toNat * scale p.getBrightness b / 256) := by
  intro p
  have bounded : Bounded p := bounded_run ops
  have fits := scale_le p.getBrightness b (bounded i)
  have byte := b.isLt
  exact ⟨bounded i, by omega, setBrightness_getBrightness p b,
    fun changed => setBrightness_stored bounded b changed i⟩

end NeoPixel

end CofferLed.Core
