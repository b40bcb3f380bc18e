import CofferLed.Core.Arithmetic

/-! The pixel memory of `Adafruit_NeoPixel`, for a strip of three bytes a pixel.

Stored brightness is one more than the brightness set, in eight bits, so that 0 stands
for full brightness: colours then go in and come out as they are. -/
namespace CofferLed.Core
open Library

/-- A strip of `N` pixels. `NEO_GRB` puts green first, then red, then blue. -/
structure NeoPixel (N : Nat) where
  brightness : BitVec 8
  pixels : Vector (BitVec 8) (3 * N)

namespace NeoPixel
variable {N : Nat}

def rOffset : Nat := 1
def gOffset : Nat := 0
def bOffset : Nat := 2

/-- The constructor: nothing lit, full brightness. -/
def create (N : Nat) : NeoPixel N := ⟨0, Vector.replicate (3 * N) 0⟩

def numPixels (_ : NeoPixel N) : Nat := N

/-- `&pixels[n * 3]`: the product is a `uint16_t`. -/
def base (n : Nat) : Exec Nat := do
  Checked.require (n * 3 < 2 ^ 16) .overflow
  pure (n * 3)

/-- A colour byte as it is stored. From 2^15 on the product overflows, which leaves the byte that
is kept of it as it is. -/
def dimmed (brightness v : BitVec 8) : Exec (BitVec 8) :=
  if brightness ≠ 0 then do
    let product ← mulInt v.toNat brightness.toNat
    pure (BitVec.ofNat 8 (product >>> 8))
  else pure v

/-- `(uint32_t)(v << 8)`: the shift is one of 16-bit `int`s, and where it overflows the conversion
extends the sign. -/
def shifted (v : BitVec 8) : Exec (BitVec 32) := do
  Checked.require (v.toNat * 256 < 2 ^ 15) .overflow
  pure ((v.setWidth 16 <<< 8).signExtend 32)

/-- A stored byte as it is returned. -/
def restored (brightness v : BitVec 8) : Exec (BitVec 32) :=
  if brightness ≠ 0 then do
    let wide ← shifted v
    pure (wide / brightness.setWidth 32)
  else pure (v.setWidth 32)

/-- The three bytes of pixel `n`, when there is one. -/
def store (p : NeoPixel N) (n : Nat) (r g b : BitVec 8) : NeoPixel N :=
  {p with pixels := ((p.pixels.setIfInBounds (n * 3 + rOffset) r).setIfInBounds
    (n * 3 + gOffset) g).setIfInBounds (n * 3 + bOffset) b}

def stored (p : NeoPixel N) (i : Nat) : BitVec 8 := p.pixels[i]?.getD 0

def setPixelColor (p : NeoPixel N) (n : Nat) (c : BitVec 32) : Exec (NeoPixel N) :=
  if n < N then do
    let r ← dimmed p.brightness ((c >>> 16).setWidth 8)
    let g ← dimmed p.brightness ((c >>> 8).setWidth 8)
    let b ← dimmed p.brightness (c.setWidth 8)
    let _ ← base n
    pure (p.store n r g b)
  else pure p

def getPixelColor (p : NeoPixel N) (n : Nat) : Exec (BitVec 32) :=
  if n ≥ N then pure 0
  else do
    let first ← base n
    let r ← restored p.brightness (p.stored (first + rOffset))
    let g ← restored p.brightness (p.stored (first + gOffset))
    let b ← restored p.brightness (p.stored (first + bOffset))
    pure (r <<< 16 ||| g <<< 8 ||| b)

def setBrightness (b : BitVec 8) (p : NeoPixel N) : NeoPixel N :=
  let newBrightness := b + 1
  if newBrightness ≠ p.brightness then
    let oldBrightness := p.brightness - 1
    let scale :=
      if oldBrightness = 0 then 0
      else if b = 255 then 65535 / oldBrightness.toNat
      else (newBrightness.toNat * 256 - 1) / oldBrightness.toNat
    ⟨newBrightness, p.pixels.map fun c => BitVec.ofNat 8 ((c.toNat * scale % 2 ^ 16) >>> 8)⟩
  else p

@[simp] theorem setPixelColor_brightness (p : NeoPixel N) (n : Nat) (c : BitVec 32) :
    (p.setPixelColor n c).val.brightness = p.brightness := by
  rw [setPixelColor, Checked.val_ite]
  split <;> rfl

/-! ### At full brightness -/

theorem setPixelColor_val (p : NeoPixel N) (full : p.brightness = 0) (n : Nat) (h : n < N)
    (c : BitVec 32) :
    (p.setPixelColor n c).val =
      p.store n ((c >>> 16).setWidth 8) ((c >>> 8).setWidth 8) (c.setWidth 8) := by
  simp [setPixelColor, h, full, dimmed]

theorem getPixelColor_val (p : NeoPixel N) (full : p.brightness = 0) (n : Nat) (h : n < N) :
    (p.getPixelColor n).val =
      (p.stored (n * 3 + 1)).setWidth 32 <<< 16 |||
        (p.stored (n * 3)).setWidth 32 <<< 8 ||| (p.stored (n * 3 + 2)).setWidth 32 := by
  simp [getPixelColor, Nat.not_le.mpr h, full, restored, base, rOffset, gOffset, bOffset]

theorem setPixelColor_safe (p : NeoPixel N) (full : p.brightness = 0) (n : Nat) (c : BitVec 32)
    (small : n * 3 < 65536) : (p.setPixelColor n c).Safe := by
  by_cases h : n < N <;> simp [setPixelColor, h, full, dimmed, base, small]

theorem getPixelColor_safe (p : NeoPixel N) (full : p.brightness = 0) (n : Nat)
    (small : n * 3 < 65536) : (p.getPixelColor n).Safe := by
  by_cases h : n ≥ N <;> simp [getPixelColor, h, full, restored, base, small]

theorem stored_store (p : NeoPixel N) (n : Nat) (h : n < N) (r g b : BitVec 8) (i : Nat) :
    (p.store n r g b).stored i =
      if i = n * 3 then g
      else if i = n * 3 + 1 then r
      else if i = n * 3 + 2 then b
      else p.stored i := by
  simp only [stored, store, Vector.getElem?_setIfInBounds, rOffset, gOffset, bOffset]
  simp only [Nat.add_zero]
  by_cases hg : i = n * 3
  · simp [hg, show n * 3 < 3 * N by omega]
  · by_cases hr : i = n * 3 + 1
    · simp [hr, show n * 3 + 1 < 3 * N by omega]
    · by_cases hb : i = n * 3 + 2
      · simp [hb, show n * 3 + 2 < 3 * N by omega]
      · simp [hb, hg, hr, Ne.symm hb, Ne.symm hg, Ne.symm hr]

end NeoPixel

end CofferLed.Core
