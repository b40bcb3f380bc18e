import CofferLed.Effects.BootBlocks
import CofferLed.Effects.LoadRing
import CofferLed.Effects.WaveCircle

/-! The two pictures of the panel, LED by LED.

Every LED shows red and green only. In the boot picture they depend on the status of one
node (`bootGlow`); in the load picture on the mean loads of the four groups of nodes and on
the distance from the wave round the strip (`loadGlow`). Neither has anything of the way the
source draws them: into a ring of pixels, onto the strip, and over the strip again. -/
namespace CofferLed.Effects
open Library CofferLed.Core Sketch

/-! ### Colours -/

def rgb (red green : ℤ) : Color := Color.ofBytes 0 (BitVec.ofInt 8 green) (BitVec.ofInt 8 red) 0

theorem ofInt_byte (b : BitVec 8) : BitVec.ofInt 8 b.toNat = b := by
  rw [BitVec.ofInt_natCast, BitVec.ofNat_toNat, BitVec.setWidth_eq]

theorem Painted.eq {c : Color} {red green : ℤ} (h : Painted c red green) (top : c.byte 3 = 0) :
    c = rgb red green := by
  obtain ⟨rfl, rfl, blue⟩ := h
  rw [rgb, ofInt_byte, ofInt_byte]
  obtain ⟨b0, b1, b2, b3⟩ := Color.byte_ofBytes 0 c.green c.red 0
  apply Color.ext_bytes
  intro k hk
  match k with
  | 0 => exact blue.trans b0.symm
  | 1 => exact b1.symm
  | 2 => exact b2.symm
  | 3 => exact top.trans b3.symm

theorem kept_top (c : Color) : c.kept.byte 3 = 0 := (Color.byte_ofBytes _ _ _ 0).2.2.2

/-! ### Booting -/

/-- An LED of a node whose animation is at `b`: red grows up to one half and fades after it,
green grows from one half on, both at a fifth of the brightness. -/
def bootGlow (b : ℚ) : Color :=
  rgb (nearest (nearest (510 * min b (1 - b)) / 5)) (nearest (nearest (510 * max 0 (b - 1 / 2)) / 5))

variable {N : Nat}

/-- The node that an LED belongs to. -/
def owner (i : Fin N) : Fin 16 := ⟨16 * i / N, node_lt i i.isLt⟩

theorem painted_bootColor {b : ℚ} (nonneg : 0 ≤ b) (le : b ≤ 1) :
    Painted (bootColor b).val (nearest (510 * min b (1 - b)))
      (nearest (510 * max 0 (b - 1 / 2))) := by
  rcases le_total b (1 / 2) with half | half
  · have dark : nearest (510 * 0) = 0 := by norm_num [nearest]
    rw [min_eq_left (by linarith), max_eq_left (by linarith), dark]
    exact bootColor_fades nonneg half
  · rw [min_eq_right (by linarith), max_eq_right (by linarith)]
    exact bootColor_turns half le

theorem bootFrame_glow (boot : Vector ℚ 16) (pixels : PixelBuffer) (strip : Strip N) (i : Fin N)
    (nonneg : 0 ≤ boot.get (owner i)) (le : boot.get (owner i) ≤ 1) :
    (bootFrame boot pixels strip).val.2.2.pixel i = bootGlow (boot.get (owner i)) := by
  rw [bootFrame_pixel boot pixels strip i i.isLt]
  exact (painted_dimmed (painted_bootColor nonneg le)).eq (kept_top _)

/-! ### Loads -/

/-- How hot segment `s` is, from 0 to 1. Loads above 100 count as 100. -/
def heat (load : Vector (BitVec 8) 16) (s : Nat) : ℚ :=
  min 1 ((total load (segmentNodes s) / 4 : Nat) / 100)

def hot (load : Vector (BitVec 8) 16) (s : Nat) : ℤ := nearest (255 * heat load s)
def cold (load : Vector (BitVec 8) 16) (s : Nat) : ℤ := nearest (255 * (1 - heat load s))

/-- A channel along the ring of pixels. Each pixel is half-way between the segments that
meet there. -/
def alongRing (channel : Nat → ℤ) (m : ℤ) : ℚ :=
  ((channel (meeting (onRing m)).1 + channel (meeting (onRing m)).2 + 1) / 2 : ℤ)

/-- The share of its brightness that the wave leaves an LED. -/
def waveShare (N : Nat) (wave : ℚ) (i : Nat) : ℚ :=
  max (1 / 10) (1 - around (N : ℚ) (wave - i) / reach N)

/-- A channel of LED `i`. -/
def loadChannel (N : Nat) (channel : Nat → ℤ) (wave : ℚ) (i : Nat) : ℤ :=
  nearest (⌊polyline (alongRing channel) (position N i)⌋ * waveShare N wave i)

def loadGlow (N : Nat) (load : Vector (BitVec 8) 16) (wave : ℚ) (i : Nat) : Color :=
  rgb (loadChannel N (hot load) wave i) (loadChannel N (cold load) wave i)

theorem heat_bounds (load : Vector (BitVec 8) 16) (s : Nat) :
    0 ≤ heat load s ∧ heat load s ≤ 1 :=
  ⟨le_min zero_le_one (by positivity), min_le_left _ _⟩

theorem painted_loadColor (load : Vector (BitVec 8) 16) (s : Nat) (h : s < numSegments) :
    Painted (loadColor load s) (hot load s) (cold load s) := by
  have h : s < 4 := h
  obtain ⟨low, high⟩ := heat_bounds load s
  have weight : Color.limited (((calcAggregateLoad load).val[s].toNat : ℚ) / 100) = heat load s := by
    rw [calcAggregateLoad_val load s h, heat, Color.limited, min_comm, max_eq_right]
    exact le_min zero_le_one (by positivity)
  have same : loadColor load s = (coldColor.interpolate hotColor (heat load s)).val := by
    rw [loadColor, segmentColor, Vector.getElem?_eq_getElem h, Option.getD_some, mapLoadToColor,
      Color.interpolate_eq, weight, Color.interpolate_eq, Color.limited, min_eq_left high,
      max_eq_right low]
  have pure_cold : Painted coldColor 0 255 := ⟨rfl, rfl, rfl⟩
  have pure_hot : Painted hotColor 255 0 := ⟨rfl, rfl, rfl⟩
  rw [same]
  convert painted_interpolate pure_cold pure_hot low high using 1
  · rw [hot]
    congr 1
    push_cast
    ring
  · rw [cold]
    congr 1
    push_cast
    ring

theorem meeting_lt : ∀ j < resolution, (meeting j).1 < numSegments ∧ (meeting j).2 < numSegments := by
  decide

theorem ringByte_along {load : Vector (BitVec 8) 16} {channel : Nat → ℤ} (k : Nat) (hk : k < 4)
    (shown : ∀ s < numSegments, (((loadColor load s).byte k).toNat : ℤ) = channel s) (m : ℤ) :
    ringByte load k m = alongRing channel m := by
  obtain ⟨first, second⟩ := meeting_lt _ (onRing_lt m)
  rw [ringByte_eq load k hk, alongRing, ← shown _ first, ← shown _ second]
  norm_cast

theorem loadChannel_dark (wave : ℚ) (i : Nat) : loadChannel N (fun _ => 0) wave i = 0 := by
  have ring : alongRing (fun _ => 0) = fun _ => 0 := by
    funext m
    norm_num [alongRing]
  rw [loadChannel, ring, polyline]
  norm_num [nearest]

theorem loadFrame_channel (ten : 10 ≤ N) {pixels : PixelBuffer} (offset : pixels.shiftOffset = 4)
    (load : Vector (BitVec 8) 16) {wave : ℚ} (low : 0 ≤ wave) (high : wave ≤ N) (strip : Strip N)
    (i : Nat) (h : i < N) (k : Nat) (hk : k < 3) (channel : Nat → ℤ)
    (shown : ∀ s < numSegments, (((loadColor load s).byte k).toNat : ℤ) = channel s) :
    ((((loadFrame load wave pixels strip).val.2.pixel i).byte k).toNat : ℤ) =
      loadChannel N channel wave i := by
  have two : 2 ≤ N := Nat.le_trans (by decide) ten
  have wavy := imposeWave_byte low high
    (interpolatePixels (updateLoadEffect load pixels).val strip).val i h k hk
  have ring : ringByte load k = alongRing channel := by
    funext m
    exact ringByte_along k (by omega) shown m
  have flat := loadShown_byte two offset load strip i h k hk
  rw [loadShown, ring] at flat
  rw [factor_circle ten wave i h] at wavy
  refine wavy.trans ?_
  rw [loadChannel, nearest, waveShare, ← flat, Int.cast_natCast]

theorem loadFrame_glow (ten : 10 ≤ N) {pixels : PixelBuffer} (offset : pixels.shiftOffset = 4)
    (load : Vector (BitVec 8) 16) {wave : ℚ} (low : 0 ≤ wave) (high : wave ≤ N) (strip : Strip N)
    (i : Nat) (h : i < N) :
    (loadFrame load wave pixels strip).val.2.pixel i = loadGlow N load wave i := by
  have shown := loadFrame_channel ten offset load low high strip i h
  have painted := painted_loadColor load
  have dark (s : Nat) (hs : s < numSegments) : (((loadColor load s).byte 0).toNat : ℤ) = 0 := by
    rw [show (loadColor load s).byte 0 = 0 from (painted s hs).blue]
    rfl
  refine Painted.eq ⟨?_, ?_, ?_⟩ ?_
  · exact shown 2 (by decide) (hot load) fun s hs => (painted s hs).red
  · exact shown 1 (by decide) (cold load) fun s hs => (painted s hs).green
  · have none := shown 0 (by decide) (fun _ => 0) dark
    rw [loadChannel_dark] at none
    exact BitVec.eq_of_toNat_eq (by exact_mod_cast none)
  · rw [loadFrame_pixel load wave pixels strip i h]
    exact kept_top _

end CofferLed.Effects
