import CofferLed.Library.Circle
import CofferLed.Sketch.Wave

/-! The wave does not see where the strip begins.

The source measures the distance of an LED from the wave along the strip, and takes a
second distance, round the end, only while the wave is near an end of the strip. Which
formula it uses then is wrong for the LEDs on one side of the wave; for these the first
distance is the smaller one. Away from the ends the distance round the end is too long to
matter. So the brightness is that at the distance round the circle (`factor_circle`). -/
namespace CofferLed.Effects
open Library CofferLed.Core Sketch

variable {N : Nat}

/-- Half the length of the wave. -/
def reach (N : Nat) : ℚ := (waveLength N : ℚ) / 2

theorem reach_bounds (ten : 10 ≤ N) : 0 < reach N ∧ reach N ≤ N / 20 := by
  have one : 1 ≤ waveLength N := (Nat.one_le_div_iff (by decide)).mpr ten
  have tenth : waveLength N * 10 ≤ N := Nat.div_mul_le_self N 10
  have one : (1 : ℚ) ≤ waveLength N := by exact_mod_cast one
  have tenth : (waveLength N : ℚ) * 10 ≤ N := by exact_mod_cast tenth
  unfold reach
  exact ⟨by linarith, by linarith⟩

/-- The brightness at a distance, without the case distinction of the source: past the
reach of the wave the line is below the normal brightness. -/
theorem waveBrightness_line (ten : 10 ≤ N) (d : ℚ) :
    (waveBrightness N d).val = max (1 / 10) (1 - d / reach N) := by
  have pos := (reach_bounds ten).1
  rw [waveBrightness_val, max_comm]
  split
  case isTrue far =>
    have : 1 ≤ d / reach N := (one_le_div pos).mpr far.le
    rw [max_eq_left (by linarith)]
  case isFalse => rfl

/-- The distance along the strip, and the one the source takes besides. -/
theorem waveDist_eq (pos : ℚ) (i : Nat) :
    waveDist N pos i =
      min (if pos + reach N > N then i - (pos - N)
        else if pos - reach N < 0 then pos + N - i else |pos - i|) |pos - i| := by
  have along : (if (i : ℚ) < pos then pos - i else i - pos) = |pos - i| := by
    split
    case isTrue below => rw [abs_of_pos (by linarith)]
    case isFalse above => rw [abs_of_nonpos (by linarith), neg_sub]
  rw [waveDist, ← min_def_lt, along]
  rfl

/-- Away from the ends, the way round the end is the shorter one only where both are beyond
the reach of the wave. -/
theorem along_or_far (ten : 10 ≤ N) {d : ℚ} (away : d ≤ N - reach N) :
    d = min d (N - d) ∨ reach N ≤ d ∧ reach N ≤ min d (N - d) := by
  obtain ⟨_, short⟩ := reach_bounds ten
  have n0 : (0 : ℚ) ≤ N := Nat.cast_nonneg N
  rcases le_total d (N - d) with near | far
  · exact .inl (min_eq_left near).symm
  · rw [min_eq_right far]
    exact .inr ⟨by linarith, by linarith⟩

/-- Round the circle, or beyond the reach of the wave either way. -/
theorem waveDist_circle (ten : 10 ≤ N) (pos : ℚ) (i : Nat) (h : i < N) :
    waveDist N pos i = around (N : ℚ) (pos - i) ∨
      reach N ≤ waveDist N pos i ∧ reach N ≤ around (N : ℚ) (pos - i) := by
  obtain ⟨_, short⟩ := reach_bounds ten
  have hi : (i : ℚ) < N := by exact_mod_cast h
  have i0 : (0 : ℚ) ≤ i := Nat.cast_nonneg i
  have n0 : (0 : ℚ) ≤ N := Nat.cast_nonneg N
  rw [waveDist_eq, around]
  rcases le_total (i : ℚ) pos with below | above
  · -- The wave is past the LED.
    rw [abs_of_nonneg (by linarith)]
    split
    · left
      rw [min_comm]
      congr 1
      ring
    · split
      · left
        rw [min_eq_right (by linarith), min_eq_left (by linarith)]
      · rw [min_self]
        exact along_or_far ten (by linarith)
  · -- The LED is past the wave.
    rw [abs_of_nonpos (by linarith), neg_sub]
    split
    · left
      rw [min_eq_right (by linarith), min_eq_left (by linarith)]
    · split
      · left
        rw [min_comm]
        congr 1
        ring
      · rw [min_self]
        exact along_or_far ten (by linarith)

theorem factor_circle (ten : 10 ≤ N) (pos : ℚ) (i : Nat) (h : i < N) :
    factor N pos i = max (1 / 10) (1 - around (N : ℚ) (pos - i) / reach N) := by
  have pos_reach := (reach_bounds ten).1
  rw [factor, waveBrightness_line ten]
  rcases waveDist_circle ten pos i h with same | ⟨far, far'⟩
  · rw [same]
  · have dark : 1 ≤ waveDist N pos i / reach N := (one_le_div pos_reach).mpr far
    have dark' : 1 ≤ around (N : ℚ) (pos - i) / reach N := (one_le_div pos_reach).mpr far'
    rw [max_eq_left (by linarith), max_eq_left (by linarith)]

/-! ### Going round -/

/-- At the two ends of the strip the wave is in the same place. -/
theorem factor_ends (ten : 10 ≤ N) (i : Nat) (h : i < N) : factor N N i = factor N 0 i := by
  have n0 : (0 : ℚ) ≤ N := Nat.cast_nonneg N
  have i0 : (0 : ℚ) ≤ i := Nat.cast_nonneg i
  have hi : (i : ℚ) ≤ N := by exact_mod_cast h.le
  have same : around (N : ℚ) (N - i) = around (N : ℚ) (0 - i) :=
    around_congr (abs_le.mpr ⟨by linarith, by linarith⟩) (abs_le.mpr ⟨by linarith, by linarith⟩) 1
      (by push_cast; ring)
  rw [factor_circle ten _ i h, factor_circle ten _ i h, same]

/-- Moving the wave and the LED by the same number of LEDs round the circle. -/
theorem factor_rotate (ten : 10 ≤ N) {pos : ℚ} (low : 0 ≤ pos) (high : pos ≤ N) (k : ℤ)
    (low' : 0 ≤ pos + k) (high' : pos + k ≤ N) (i : Nat) (h : i < N) :
    factor N (pos + k) (((i : ℤ) + k) % N).toNat = factor N pos i := by
  have size : (0 : ℤ) < N := by omega
  -- The LED that `i` becomes is `j`, and the circle is gone round `q` times on the way.
  obtain ⟨j, j_eq⟩ := Int.eq_ofNat_of_zero_le (Int.emod_nonneg ((i : ℤ) + k) size.ne')
  obtain ⟨q, q_eq⟩ : ∃ q, ((i : ℤ) + k) / N = q := ⟨_, rfl⟩
  have lt := Int.emod_lt_of_pos ((i : ℤ) + k) size
  have whole := Int.emod_add_mul_ediv ((i : ℤ) + k) N
  rw [j_eq] at lt whole
  rw [q_eq] at whole
  rw [j_eq, Int.toNat_natCast]
  have j_lt : j < N := by exact_mod_cast lt
  have whole : (j : ℚ) + N * q = i + k := by exact_mod_cast whole
  have i0 : (0 : ℚ) ≤ i := Nat.cast_nonneg i
  have hi : (i : ℚ) ≤ N := by exact_mod_cast h.le
  have j0 : (0 : ℚ) ≤ j := Nat.cast_nonneg j
  have hj : (j : ℚ) ≤ N := by exact_mod_cast j_lt.le
  have same : around (N : ℚ) (pos + k - j) = around (N : ℚ) (pos - i) :=
    around_congr (abs_le.mpr ⟨by linarith, by linarith⟩) (abs_le.mpr ⟨by linarith, by linarith⟩) q
      (by linarith)
  rw [factor_circle ten _ j j_lt, factor_circle ten pos i h, same]

/-- **The wave is circular.** Every channel of every LED is scaled by a factor that depends
on its distance from the wave round the circle only; no channel gets brighter. The two ends
of the strip are one place for the wave, and turning the circle turns the factors. -/
theorem wave_circular (ten : 10 ≤ N) {pos : ℚ} (low : 0 ≤ pos) (high : pos ≤ N) :
    (∀ (strip : Strip N) (i : Nat), i < N → ∀ c, c < 3 →
        let old := ((strip.pixel i).byte c).toNat
        let new := (((imposeWave pos strip).val.pixel i).byte c).toNat
        let d := min |pos - i| (N - |pos - i|)
        let f := max (1 / 10) (1 - d / ((N / 10 : Nat) / 2))
        (new : ℤ) = ⌊(old : ℚ) * f + 1 / 2⌋ ∧ new ≤ old) ∧
      (∀ strip : Strip N, (imposeWave N strip).val = (imposeWave 0 strip).val) ∧
      ∀ k : ℤ, 0 ≤ pos + k → pos + k ≤ N → ∀ i, i < N →
        factor N (pos + k) (((i : ℤ) + k) % N).toNat = factor N pos i := by
  refine ⟨?_, ?_, fun k low' high' i h => factor_rotate ten low high k low' high' i h⟩
  · intro strip i h c hc old new d f
    refine ⟨?_, imposeWave_byte_le low high strip i h c hc⟩
    rw [imposeWave_byte low high strip i h c hc, factor_circle ten pos i h]
    rfl
  · intro strip
    apply Strip.ext_pixels
    intro j hj
    rw [imposeWave_pixel _ strip j hj, imposeWave_pixel _ strip j hj, factor_ends ten j hj]

/-- Past the start of the coffer's strip: LED 0 becomes LED 97. -/
theorem wave_circular_coffer :
    factor 98 (3 / 2 + (-1 : ℤ)) ((((0 : Nat) : ℤ) + -1) % (98 : Nat)).toNat =
      factor 98 (3 / 2) 0 :=
  (wave_circular (N := 98) (by decide) (by norm_num) (by norm_num)).2.2 (-1) (by norm_num)
    (by norm_num) 0 (by decide)

end CofferLed.Effects
