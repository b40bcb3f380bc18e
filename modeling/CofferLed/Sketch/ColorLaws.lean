import CofferLed.Sketch.Color

/-! The laws of `interpolate`.

The weight is cut off at 0 and 1, the channel is a rational that is cut off at the range
of a byte and rounded half up. The first keeps the order of weights and turns over with
them (`limited_one_sub`), the second never takes effect, and rounding keeps order and
whole values; so a mixture of colours obeys the laws of a mixture of numbers. -/
namespace CofferLed.Sketch.Color
open Library CofferLed.Core

/-! ### Weights -/

theorem limited_of_nonpos {p : ℚ} (h : p ≤ 0) : limited p = 0 := by
  rw [limited, min_eq_left (by linarith), max_eq_left h]

theorem limited_of_one_le {p : ℚ} (h : 1 ≤ p) : limited p = 1 := by
  rw [limited, min_eq_right h, max_eq_right zero_le_one]

theorem limited_one_sub (p : ℚ) : limited (1 - p) = 1 - limited p := by
  rcases le_total p 0 with low | nonneg
  · rw [limited_of_nonpos low, limited_of_one_le (by linarith), sub_zero]
  · rcases le_total 1 p with high | le
    · rw [limited_of_one_le high, limited_of_nonpos (by linarith), sub_self]
    · rw [limited, limited, min_eq_left le, min_eq_left (by linarith), max_eq_right nonneg,
        max_eq_right (by linarith)]

/-! ### Channels -/

/-- Rounding keeps whole bounds. -/
theorem rounded_mem {x : ℚ} {low high : Nat} (ge : (low : ℚ) ≤ x) (le : x ≤ high) :
    (low : ℤ) ≤ ⌊x + 1 / 2⌋ ∧ ⌊x + 1 / 2⌋ ≤ high := by
  refine ⟨?_, ?_⟩
  · rw [Int.le_floor]
    push_cast
    linarith
  · rw [← Int.lt_add_one_iff, Int.floor_lt]
    push_cast
    linarith

section
variable (a b : Color) (p : ℚ) (k : Nat) (hk : k < 4)
include hk

/-- A channel stays within any bounds of the two it comes from. -/
theorem interpolate_byte_mem {low high : Nat}
    (ha : low ≤ (a.byte k).toNat ∧ (a.byte k).toNat ≤ high)
    (hb : low ≤ (b.byte k).toNat ∧ (b.byte k).toNat ≤ high) :
    low ≤ ((a.interpolate b p).val.byte k).toNat ∧
      ((a.interpolate b p).val.byte k).toNat ≤ high := by
  have w0 := limited_nonneg p
  have w1 := limited_le_one p
  have a_low : (low : ℚ) ≤ (a.byte k).toNat := by exact_mod_cast ha.1
  have a_high : ((a.byte k).toNat : ℚ) ≤ high := by exact_mod_cast ha.2
  have b_low : (low : ℚ) ≤ (b.byte k).toNat := by exact_mod_cast hb.1
  have b_high : ((b.byte k).toNat : ℚ) ≤ high := by exact_mod_cast hb.2
  have mixed : between (a.byte k) (b.byte k) (limited p) =
      (1 - limited p) * (a.byte k).toNat + limited p * (b.byte k).toNat := by
    unfold between
    ring
  have ge : (low : ℚ) ≤ between (a.byte k) (b.byte k) (limited p) := by
    rw [mixed]
    nlinarith
  have le : between (a.byte k) (b.byte k) (limited p) ≤ high := by
    rw [mixed]
    nlinarith
  obtain ⟨ge, le⟩ := rounded_mem ge le
  rw [← interpolate_byte a b p k hk] at ge le
  exact ⟨by exact_mod_cast ge, by exact_mod_cast le⟩

/-- What neither colour has a mixture has not. -/
theorem interpolate_byte_zero (ha : (a.byte k).toNat = 0) (hb : (b.byte k).toNat = 0) :
    ((a.interpolate b p).val.byte k).toNat = 0 :=
  Nat.le_zero.mp (interpolate_byte_mem a b p k hk ⟨Nat.zero_le _, ha.le⟩ ⟨Nat.zero_le _, hb.le⟩).2

/-- With the weight a channel moves from the first colour's towards the second's. -/
theorem interpolate_byte_rises {q : ℚ} (le : p ≤ q) (h : (a.byte k).toNat ≤ (b.byte k).toNat) :
    ((a.interpolate b p).val.byte k).toNat ≤ ((a.interpolate b q).val.byte k).toNat := by
  have moved := between_weight_mono h (limited_mono le)
  rw [← Int.ofNat_le, interpolate_byte a b p k hk, interpolate_byte a b q k hk]
  exact Int.floor_le_floor (by linarith)

theorem interpolate_byte_falls {q : ℚ} (le : p ≤ q) (h : (b.byte k).toNat ≤ (a.byte k).toNat) :
    ((a.interpolate b q).val.byte k).toNat ≤ ((a.interpolate b p).val.byte k).toNat := by
  have moved := between_weight_anti h (limited_mono le)
  rw [← Int.ofNat_le, interpolate_byte a b p k hk, interpolate_byte a b q k hk]
  exact Int.floor_le_floor (by linarith)

/-- A channel grows with those it comes from. -/
theorem interpolate_byte_mono (a' b' : Color) (ha : (a.byte k).toNat ≤ (a'.byte k).toNat)
    (hb : (b.byte k).toNat ≤ (b'.byte k).toNat) :
    ((a.interpolate b p).val.byte k).toNat ≤ ((a'.interpolate b' p).val.byte k).toNat := by
  have w0 := limited_nonneg p
  have w1 := limited_le_one p
  have ha : ((a.byte k).toNat : ℚ) ≤ (a'.byte k).toNat := by exact_mod_cast ha
  have hb : ((b.byte k).toNat : ℚ) ≤ (b'.byte k).toNat := by exact_mod_cast hb
  rw [← Int.ofNat_le, interpolate_byte a b p k hk, interpolate_byte a' b' p k hk]
  apply Int.floor_le_floor
  unfold between
  nlinarith

end

/-! ### Colours -/

/-- Up to the weight 0 the first colour is left alone. -/
theorem interpolate_of_nonpos (a b : Color) {p : ℚ} (h : p ≤ 0) : (a.interpolate b p).val = a := by
  apply ext_bytes
  intro k hk
  apply BitVec.eq_of_toNat_eq
  rw [← Int.ofNat_inj, interpolate_byte a b p k hk, limited_of_nonpos h, between, Int.floor_eq_iff]
  exact ⟨by push_cast; linarith, by push_cast; linarith⟩

theorem interpolate_self (a : Color) (p : ℚ) : (a.interpolate a p).val = a := by
  apply ext_bytes
  intro k hk
  obtain ⟨ge, le⟩ := interpolate_byte_mem a a p k hk ⟨le_refl _, le_refl _⟩ ⟨le_refl _, le_refl _⟩
  exact BitVec.eq_of_toNat_eq (le_antisymm le ge)

/-- In the middle: the mean, halves up. -/
theorem interpolate_half_byte (a b : Color) (k : Nat) (hk : k < 4) :
    ((a.interpolate b (1 / 2)).val.byte k).toNat =
      ((a.byte k).toNat + (b.byte k).toNat + 1) / 2 := by
  have weight : limited (1 / 2) = 1 / 2 := by
    norm_num [limited]
  have mean : between (a.byte k) (b.byte k) (1 / 2) + 1 / 2 =
      (((a.byte k).toNat + (b.byte k).toNat + 1 : ℕ) : ℚ) / (2 : ℕ) := by
    rw [between]
    push_cast
    ring
  rw [← Int.ofNat_inj, interpolate_byte a b _ k hk, weight, mean, Rat.floor_natCast_div_natCast]
  rfl

/-- From either end the same mixture. -/
theorem interpolate_swap (a b : Color) (p : ℚ) :
    (a.interpolate b p).val = (b.interpolate a (1 - p)).val := by
  apply ext_bytes
  intro k hk
  apply BitVec.eq_of_toNat_eq
  have same : between (a.byte k) (b.byte k) (limited p) =
      between (b.byte k) (a.byte k) (limited (1 - p)) := by
    rw [limited_one_sub]
    unfold between
    ring
  rw [← Int.ofNat_inj, interpolate_byte a b p k hk, interpolate_byte b a (1 - p) k hk, same]

theorem interpolate_of_one_le (a b : Color) {p : ℚ} (h : 1 ≤ p) : (a.interpolate b p).val = b := by
  rw [interpolate_swap, interpolate_of_nonpos b a (by linarith)]

/-- **The laws of `interpolate`**, for any two colours and any weight: it stays between the
colours, ends at them, is the same from either end, and moves with the weight and with the
channels it mixes. -/
theorem interpolate_laws (a b : Color) (p : ℚ) :
    (∀ k, k < 4 →
        min (a.byte k).toNat (b.byte k).toNat ≤ ((a.interpolate b p).val.byte k).toNat ∧
          ((a.interpolate b p).val.byte k).toNat ≤ max (a.byte k).toNat (b.byte k).toNat) ∧
      (p ≤ 0 → (a.interpolate b p).val = a) ∧ (1 ≤ p → (a.interpolate b p).val = b) ∧
      (a.interpolate b p).val = (b.interpolate a (1 - p)).val ∧
      (∀ q, p ≤ q → ∀ k, k < 4 →
        ((a.byte k).toNat ≤ (b.byte k).toNat →
            ((a.interpolate b p).val.byte k).toNat ≤ ((a.interpolate b q).val.byte k).toNat) ∧
          ((b.byte k).toNat ≤ (a.byte k).toNat →
            ((a.interpolate b q).val.byte k).toNat ≤ ((a.interpolate b p).val.byte k).toNat)) ∧
      ∀ (a' b' : Color) (k : Nat), k < 4 → (a.byte k).toNat ≤ (a'.byte k).toNat →
        (b.byte k).toNat ≤ (b'.byte k).toNat →
          ((a.interpolate b p).val.byte k).toNat ≤ ((a'.interpolate b' p).val.byte k).toNat := by
  refine ⟨fun k hk => ?_, interpolate_of_nonpos a b, interpolate_of_one_le a b,
    interpolate_swap a b p, fun q le k hk => ?_, fun a' b' k hk => ?_⟩
  · exact interpolate_byte_mem a b p k hk ⟨min_le_left _ _, le_max_left _ _⟩
      ⟨min_le_right _ _, le_max_right _ _⟩
  · exact ⟨interpolate_byte_rises a b p k hk le, interpolate_byte_falls a b p k hk le⟩
  · exact interpolate_byte_mono a b p k hk a' b'

end CofferLed.Sketch.Color
