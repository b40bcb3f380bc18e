import CofferLed.Core.Brightness
import CofferLed.Library.Bytes

/-! What is read of a strip below full brightness.

The library scales a stored byte back when it is read. From 128 on the shift this begins with
overflows; below, what is read back is at most what was set, and by how much it is less grows
as the brightness falls (`read_back`). A pixel that is written back as it was read can fade by
one each time (`rewrites_fade`). -/
namespace CofferLed.Core
open Library

namespace NeoPixel
variable {N : Nat}

/-! ### One byte -/

/-- What a byte of the memory becomes when it is read. -/
def undim (brightness : BitVec 8) (s : Nat) : Nat :=
  if brightness = 0 then s else s * 256 / brightness.toNat

/-- Read, a byte is at most what it was written as, and it falls short by less than this. -/
theorem undim_dim (brightness v : BitVec 8) :
    undim brightness (dim brightness v.toNat) ≤ v.toNat ∧
      (v.toNat - undim brightness (dim brightness v.toNat)) * brightness.toNat ≤
        254 + brightness.toNat := by
  unfold undim dim
  split
  case isTrue full => exact ⟨Nat.le_refl _, by simp⟩
  case isFalse set =>
    obtain ⟨pos, -⟩ := brightness_pos set
    have stored := Nat.div_add_mod (v.toNat * brightness.toNat) 256
    have cut := Nat.mod_lt (v.toNat * brightness.toNat) (by decide : 256 > 0)
    have returned := Nat.div_add_mod (v.toNat * brightness.toNat / 256 * 256) brightness.toNat
    have rest := Nat.mod_lt (v.toNat * brightness.toNat / 256 * 256) pos
    generalize v.toNat * brightness.toNat / 256 = s at *
    have back : s * 256 / brightness.toNat ≤ v.toNat := by
      apply Nat.div_le_of_le_mul
      rw [Nat.mul_comm brightness.toNat]
      omega
    refine ⟨back, ?_⟩
    rw [Nat.sub_mul, Nat.mul_comm (s * 256 / brightness.toNat)]
    omega

/-- Written again as it was read, a byte stays or falls by one. -/
theorem dim_undim (brightness : BitVec 8) (s : Nat) :
    dim brightness (undim brightness s) =
      if brightness = 0 ∨ brightness.toNat ∣ 256 * s then s else s - 1 := by
  unfold undim dim
  by_cases full : brightness = 0
  · rw [if_pos full, if_pos full, if_pos (.inl full)]
  · obtain ⟨pos, -⟩ := brightness_pos full
    have byte := brightness.isLt
    have returned := Nat.div_add_mod (s * 256) brightness.toNat
    have rest := Nat.mod_lt (s * 256) pos
    rw [if_neg full, if_neg full, Nat.mul_comm (s * 256 / brightness.toNat)]
    split
    case isTrue whole =>
      have none : s * 256 % brightness.toNat = 0 :=
        Nat.mod_eq_zero_of_dvd (Nat.mul_comm s 256 ▸ whole.resolve_left full)
      omega
    case isFalse part =>
      have some : s * 256 % brightness.toNat ≠ 0 := fun none =>
        part (.inr (Nat.mul_comm s 256 ▸ Nat.dvd_of_mod_eq_zero none))
      omega

/-! ### Reading -/

theorem shifted_val {v : BitVec 8} (low : v.toNat < 128) : (shifted v).val.toNat = v.toNat * 256 := by
  have wide : (v.setWidth 16 <<< 8).toNat = v.toNat * 256 := by
    rw [BitVec.toNat_shiftLeft, BitVec.toNat_setWidth, Nat.shiftLeft_eq]
    omega
  have positive : (v.setWidth 16 <<< 8).msb = false := by
    rw [BitVec.msb_eq_false_iff_two_mul_lt, wide]
    omega
  show ((v.setWidth 16 <<< 8).signExtend 32).toNat = _
  rw [BitVec.signExtend_eq_setWidth_of_msb_false positive, BitVec.toNat_setWidth, wide]
  omega

theorem restored_val (brightness : BitVec 8) {v : BitVec 8} (low : brightness = 0 ∨ v.toNat < 128) :
    (restored brightness v).val = BitVec.ofNat 32 (undim brightness v.toNat) := by
  apply BitVec.eq_of_toNat_eq
  unfold restored undim
  split
  case isTrue set =>
    have byte := v.isLt
    have small := Nat.div_le_self (v.toNat * 256) brightness.toNat
    show ((shifted v).val / brightness.setWidth 32).toNat = _
    rw [BitVec.toNat_udiv, shifted_val (low.resolve_left set), BitVec.toNat_setWidth,
      BitVec.toNat_ofNat]
    have word := brightness.isLt
    rw [Nat.mod_eq_of_lt (by omega : brightness.toNat < 2 ^ 32), Nat.mod_eq_of_lt (by omega)]
  case isFalse full =>
    rw [if_pos (not_not.mp full)]
    simp

/-- A byte from 128 on overflows when it is shifted, unless the strip is not dimmed. -/
theorem restored_safe (brightness v : BitVec 8) :
    (restored brightness v).Safe ↔ brightness = 0 ∨ v.toNat < 128 := by
  unfold restored shifted
  split
  case isTrue set =>
    simp only [Checked.safe_bind, Checked.safe_require, Checked.safe_pure, and_true, set, false_or]
    omega
  case isFalse full => simp [not_not.mp full]

theorem undim_le {p : NeoPixel N} (h : Bounded p) (i : Nat) :
    undim p.brightness (p.stored i).toNat ≤ 255 := by
  have le := h i
  have byte := (p.stored i).isLt
  unfold undim
  split
  · omega
  case isFalse set =>
    obtain ⟨pos, below⟩ := brightness_pos set
    rw [getBrightness] at le
    apply Nat.le_of_lt_succ
    rw [Nat.div_lt_iff_lt_mul pos]
    omega

theorem byte_cases {k : Nat} (hk : k < 3) : k = 0 ∨ k = 1 ∨ k = 2 := by
  omega

/-- No byte of pixel `n` is too large to be shifted. -/
def Readable (p : NeoPixel N) (n : Nat) : Prop :=
  p.brightness = 0 ∨ ∀ k < 3, (p.stored (n * 3 + k)).toNat < 128

theorem getPixelColor_safe_iff (p : NeoPixel N) (n : Nat) (inside : n < N) (small : n * 3 < 65536) :
    (p.getPixelColor n).Safe ↔ p.Readable n := by
  rw [getPixelColor, if_neg (Nat.not_le.mpr inside)]
  simp only [Checked.safe_bind, Checked.safe_pure, restored_safe, base, Checked.safe_require,
    Checked.val_bind, Checked.val_pure, rOffset, gOffset, bOffset]
  constructor
  · rintro ⟨-, red, green, blue, -⟩
    by_cases full : p.brightness = 0
    · exact .inl full
    · refine .inr fun k hk => ?_
      obtain rfl | rfl | rfl := byte_cases hk
      · exact green.resolve_left full
      · exact red.resolve_left full
      · exact blue.resolve_left full
  · rintro (full | low)
    · exact ⟨⟨small, trivial⟩, .inl full, .inl full, .inl full, trivial⟩
    · exact ⟨⟨small, trivial⟩, .inr (low 1 (by decide)), .inr (low 0 (by decide)),
        .inr (low 2 (by decide)), trivial⟩

/-- The colour read is the three bytes read, if none overflows. -/
theorem getPixelColor_bytes {p : NeoPixel N} (h : Bounded p) (n : Nat) (inside : n < N)
    (readable : p.Readable n) :
    (p.getPixelColor n).val =
      wordOf (BitVec.ofNat 8 (undim p.brightness (p.stored (n * 3 + bOffset)).toNat))
        (BitVec.ofNat 8 (undim p.brightness (p.stored (n * 3 + gOffset)).toNat))
        (BitVec.ofNat 8 (undim p.brightness (p.stored (n * 3 + rOffset)).toNat)) 0 := by
  have widened (k : Nat) (hk : k < 3) : (restored p.brightness (p.stored (n * 3 + k))).val =
      (BitVec.ofNat 8 (undim p.brightness (p.stored (n * 3 + k)).toNat)).setWidth 32 := by
    have byte := undim_le h (n * 3 + k)
    rw [restored_val p.brightness (readable.imp_right fun low => low k hk)]
    exact BitVec.eq_of_toNat_eq (by
      rw [BitVec.toNat_setWidth, BitVec.toNat_ofNat, BitVec.toNat_ofNat]
      omega)
  rw [← wordOf_shifted_three, ← widened bOffset (by decide), ← widened gOffset (by decide),
    ← widened rOffset (by decide), getPixelColor, if_neg (Nat.not_le.mpr inside)]
  rfl

/-- The byte of the memory that holds byte `k` of a colour. -/
def place (k : Nat) : Nat := if k = 0 then bOffset else if k = 1 then gOffset else rOffset

theorem stored_setPixelColor (p : NeoPixel N) (n : Nat) (inside : n < N) (c : BitVec 32) (k : Nat)
    (hk : k < 3) :
    ((p.setPixelColor n c).val.stored (n * 3 + place k)).toNat =
      dim p.brightness (byteOf c k).toNat := by
  have blue : c.setWidth 8 = byteOf c 0 := by
    rw [← shifted_byteOf c 0]
    rfl
  rw [setPixelColor_store p n inside, stored_store p n inside, ← dimmed_val, blue]
  obtain rfl | rfl | rfl := byte_cases hk
  · simp [place, bOffset]
  · simp [place, gOffset, ← shifted_byteOf c 1]
  · simp [place, rOffset, ← shifted_byteOf c 2]

theorem stored_setPixelColor_other (p : NeoPixel N) (n : Nat) (inside : n < N) (c : BitVec 32)
    (i : Nat) (other : i / 3 ≠ n) : (p.setPixelColor n c).val.stored i = p.stored i := by
  rw [setPixelColor_store p n inside, stored_store p n inside, if_neg (by omega),
    if_neg (by omega), if_neg (by omega)]

theorem getPixelColor_byte {p : NeoPixel N} (h : Bounded p) (n : Nat) (inside : n < N)
    (readable : p.Readable n) (k : Nat) (hk : k < 3) :
    (byteOf (p.getPixelColor n).val k).toNat =
      undim p.brightness (p.stored (n * 3 + place k)).toNat := by
  have small (i : Nat) : undim p.brightness (p.stored i).toNat < 2 ^ 8 :=
    Nat.lt_succ_of_le (undim_le h i)
  rw [getPixelColor_bytes h n inside readable]
  obtain ⟨blue, green, red, -⟩ := byteOf_wordOf
    (BitVec.ofNat 8 (undim p.brightness (p.stored (n * 3 + bOffset)).toNat))
    (BitVec.ofNat 8 (undim p.brightness (p.stored (n * 3 + gOffset)).toNat))
    (BitVec.ofNat 8 (undim p.brightness (p.stored (n * 3 + rOffset)).toNat)) 0
  obtain rfl | rfl | rfl := byte_cases hk
  · rw [blue]
    exact Nat.mod_eq_of_lt (small _)
  · rw [green]
    exact Nat.mod_eq_of_lt (small _)
  · rw [red]
    exact Nat.mod_eq_of_lt (small _)

/-! ### Writing back what was read -/

/-- `setPixelColor(n, getPixelColor(n))` -/
def rewrite (n : Nat) (p : NeoPixel N) : NeoPixel N := (p.setPixelColor n (p.getPixelColor n).val).val

/-- What becomes of a byte of the memory. -/
def fade (brightness : BitVec 8) (s : Nat) : Nat :=
  if brightness = 0 ∨ brightness.toNat ∣ 256 * s then s else s - 1

theorem fade_iterate (brightness : BitVec 8) (s rounds : Nat) :
    (fade brightness)^[rounds] s ≤ s ∧ s ≤ (fade brightness)^[rounds] s + rounds := by
  induction rounds with
  | zero => exact ⟨Nat.le_refl s, Nat.le_refl s⟩
  | succ rounds ih =>
    rw [Function.iterate_succ_apply']
    obtain ⟨below, near⟩ := ih
    generalize (fade brightness)^[rounds] s = t at *
    unfold fade
    split <;> omega

theorem rewrite_brightness (n : Nat) (p : NeoPixel N) : (p.rewrite n).brightness = p.brightness :=
  setPixelColor_brightness p n _

/-- At most half of full brightness every byte can be read. -/
theorem Bounded.readable {p : NeoPixel N} (h : Bounded p) (low : p.getBrightness.toNat < 128)
    (n : Nat) : p.Readable n := .inr fun _ _ => Nat.lt_of_le_of_lt (h _) low

theorem rewrite_stored {p : NeoPixel N} (h : Bounded p) (low : p.getBrightness.toNat < 128) (n : Nat)
    (inside : n < N) (i : Nat) :
    ((p.rewrite n).stored i).toNat =
      if i / 3 = n then fade p.brightness (p.stored i).toNat else (p.stored i).toNat := by
  split
  case isTrue here =>
    obtain ⟨k, hk, at_⟩ : ∃ k < 3, i = n * 3 + place k := by
      have which : i % 3 = 0 ∨ i % 3 = 1 ∨ i % 3 = 2 := by omega
      rcases which with zero | one | two
      · exact ⟨1, by decide, by simp [place, gOffset]; omega⟩
      · exact ⟨2, by decide, by simp [place, rOffset]; omega⟩
      · exact ⟨0, by decide, by simp [place, bOffset]; omega⟩
    have written := stored_setPixelColor p n inside (p.getPixelColor n).val k hk
    rw [getPixelColor_byte h n inside (h.readable low n) k hk, dim_undim] at written
    rw [at_]
    exact written
  case isFalse other => rw [rewrite, stored_setPixelColor_other p n inside _ i other]

theorem rewrites_stored (rounds : Nat) {p : NeoPixel N} (h : Bounded p)
    (low : p.getBrightness.toNat < 128) (n : Nat) (inside : n < N) :
    Bounded ((rewrite n)^[rounds] p) ∧ ((rewrite n)^[rounds] p).brightness = p.brightness ∧
      ∀ i, (((rewrite n)^[rounds] p).stored i).toNat =
        if i / 3 = n then (fade p.brightness)^[rounds] (p.stored i).toNat else (p.stored i).toNat := by
  induction rounds with
  | zero => exact ⟨h, rfl, fun i => (ite_self _).symm⟩
  | succ rounds ih =>
    rw [Function.iterate_succ_apply']
    obtain ⟨bounded, same, stored⟩ := ih
    have still : ((rewrite n)^[rounds] p).getBrightness.toNat < 128 := by
      rw [getBrightness, same]
      exact low
    refine ⟨bounded_setPixelColor bounded n _, (rewrite_brightness n _).trans same, fun i => ?_⟩
    rw [rewrite_stored bounded still n inside, same, stored i]
    split
    · rw [Function.iterate_succ_apply']
    · rfl

/-- **What is read back.** After any operations, a colour that was set is read without an
overflow exactly if no byte was stored as 128 or more, or the strip is not dimmed. Then each
byte of it is at most what it was set to, and the less below it the brighter the strip. -/
theorem read_back (ops : List Op) (n : Nat) (inside : n < N) (small : n * 3 < 65536)
    (c : BitVec 32) :
    let p := (create N).after ops
    let read := (p.setPixelColor n c).val.getPixelColor n
    (read.Safe ↔ p.brightness = 0 ∨ ∀ k < 3, dim p.brightness (byteOf c k).toNat < 128) ∧
      (read.Safe → ∀ k < 3,
        let back := (byteOf read.val k).toNat
        back ≤ (byteOf c k).toNat ∧
          ((byteOf c k).toNat - back) * (p.getBrightness.toNat + 1) ≤ 255 + p.getBrightness.toNat ∧
          (p.brightness = 0 → back = (byteOf c k).toNat)) := by
  intro p read
  have bounded : Bounded p := bounded_run ops
  have same : (p.setPixelColor n c).val.brightness = p.brightness :=
    setPixelColor_brightness p n c
  refine ⟨?_, fun safe k hk => ?_⟩
  · have stored := stored_setPixelColor p n inside c
    rw [getPixelColor_safe_iff _ n inside small, Readable, same]
    refine or_congr_right ⟨fun low k hk => ?_, fun low k hk => ?_⟩
    · rw [← stored k hk]
      obtain rfl | rfl | rfl := byte_cases hk
      · exact low 2 (by decide)
      · exact low 0 (by decide)
      · exact low 1 (by decide)
    · obtain rfl | rfl | rfl := byte_cases hk
      · exact stored 1 (by decide) ▸ low 1 (by decide)
      · exact stored 2 (by decide) ▸ low 2 (by decide)
      · exact stored 0 (by decide) ▸ low 0 (by decide)
  · intro back
    have readable := (getPixelColor_safe_iff _ n inside small).mp safe
    have value : back = undim p.brightness (dim p.brightness (byteOf c k).toNat) := by
      rw [← stored_setPixelColor p n inside c k hk, ← same]
      exact getPixelColor_byte (bounded_setPixelColor bounded n c) n inside readable k hk
    obtain ⟨le, near⟩ := undim_dim p.brightness (byteOf c k)
    rw [← value] at le near
    by_cases full : p.brightness = 0
    · have exact' : back = (byteOf c k).toNat := by rw [value, undim, dim, if_pos full, if_pos full]
      refine ⟨le, ?_, fun _ => exact'⟩
      rw [exact', Nat.sub_self, Nat.zero_mul]
      exact Nat.zero_le _
    · obtain ⟨-, set⟩ := brightness_pos full
      refine ⟨le, ?_, fun zero => absurd zero full⟩
      rw [getBrightness, set]
      omega

/-- White at brightness 99 is stored as 99 and read as 253. -/
theorem read_back_white :
    let p := (create 1).after [.setBrightness 99]
    let read := (p.setPixelColor 0 0xffffff).val.getPixelColor 0
    (byteOf read.val 2).toNat ≤ 255 ∧ (255 - (byteOf read.val 2).toNat) * 100 ≤ 354 := by
  intro p read
  obtain ⟨safe, back⟩ := read_back (N := 1) [.setBrightness 99] 0 (by decide) (by decide) 0xffffff
  obtain ⟨le, near, -⟩ := back (safe.mpr (.inr (by decide))) 2 (by decide)
  exact ⟨le, near⟩

/-- **A pixel that is written back as it was read** fades. At most half of full brightness no
read overflows; each round takes one off every byte of the pixel that is not exact at this
brightness, none off the others, and leaves the rest of the strip as it is. -/
theorem rewrites_fade (ops : List Op) (n : Nat) (inside : n < N) (small : n * 3 < 65536)
    (rounds : Nat) (low : ((create N).after ops).getBrightness.toNat < 128) :
    let p := (create N).after ops
    let q := (rewrite n)^[rounds] p
    (q.getPixelColor n).Safe ∧
      ∀ i,
        (q.stored i).toNat = (if i / 3 = n then (fade p.brightness)^[rounds] (p.stored i).toNat
          else (p.stored i).toNat) ∧
        (q.stored i).toNat ≤ (p.stored i).toNat ∧ (p.stored i).toNat ≤ (q.stored i).toNat + rounds := by
  intro p q
  obtain ⟨bounded, same, stored⟩ := rewrites_stored rounds (bounded_run ops) low n inside
  refine ⟨?_, fun i => ⟨stored i, ?_⟩⟩
  · have still : ((rewrite n)^[rounds] ((create N).after ops)).getBrightness.toNat < 128 := by
      rw [getBrightness, same]
      exact low
    exact (getPixelColor_safe_iff _ n inside small).mpr (bounded.readable still n)
  · have far := fade_iterate p.brightness (p.stored i).toNat rounds
    have value : (q.stored i).toNat = _ := stored i
    rw [value]
    split
    · exact far
    · exact ⟨Nat.le_refl _, Nat.le_add_right _ _⟩

theorem rewrites_fade_white :
    let p := (create 1).after [.setBrightness 2, .setPixelColor 0 0xffffff]
    (p.stored 1).toNat ≤ (((rewrite 0)^[5] p).stored 1).toNat + 5 :=
  ((rewrites_fade (N := 1) [.setBrightness 2, .setPixelColor 0 0xffffff] 0 (by decide)
    (by decide) 5 (by decide +kernel)).2 1).2.2

end NeoPixel

end CofferLed.Core
