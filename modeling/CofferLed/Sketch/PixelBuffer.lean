import CofferLed.Sketch.Color

/-! `class PixelBuffer`: a ring of 36 colours that both effects draw into.

`at` addresses the pixels as they are stored, the subscript operator from a shifted
origin. The shift is kept below the number of pixels by everything that sets it, so
the structure says so. -/
namespace CofferLed.Sketch
open Library CofferLed.Core

def numSegments : Nat := 4
def numSubsegments : Nat := 9
def resolution : Nat := numSegments * numSubsegments

structure PixelBuffer where
  pixels : Vector Color resolution
  shiftOffset : Nat
  offset_lt : shiftOffset < resolution

namespace PixelBuffer

/-- The static members before `setup`. -/
def reset : PixelBuffer := ⟨Vector.replicate resolution ⟨0⟩, 0, by decide⟩

/-- `at(idx)`, read. -/
def atIndex (p : PixelBuffer) (idx : ℤ) : Exec Color := do
  Checked.require (0 ≤ idx) .index
  Checked.readAt .index p.pixels idx.toNat

/-- `at(idx) = c`. -/
def assign (p : PixelBuffer) (idx : Nat) (c : Color) : Exec PixelBuffer := do
  let pixels ← Checked.writeAt .index p.pixels idx c
  pure {p with pixels := pixels}

/-- Where the subscript operator looks. -/
def shifted (p : PixelBuffer) (idx : Nat) : Nat := (idx + p.shiftOffset) % resolution

/-- `operator[]`, read. -/
def subscript (p : PixelBuffer) (idx : Nat) : Exec Color :=
  Checked.readAt .index p.pixels (p.shifted idx)

def offset (p : PixelBuffer) (val : BitVec 8) : PixelBuffer :=
  {p with shiftOffset := val.toNat % resolution, offset_lt := Nat.mod_lt _ (by decide)}

/-- The colour stored at `j`. -/
def pixel (p : PixelBuffer) (j : Nat) : Color := p.pixels[j]?.getD ⟨0⟩

theorem atIndex_val (p : PixelBuffer) (j : Nat) (h : j < resolution) :
    (p.atIndex (j : ℤ)).val = p.pixel j := by
  simp only [atIndex, Checked.val_bind, Int.toNat_natCast, Checked.val_readAt _ _ _ h, pixel]
  simp [h]

theorem atIndex_safe (p : PixelBuffer) (j : Nat) (h : j < resolution) : (p.atIndex (j : ℤ)).Safe := by
  simp [atIndex, h]

theorem assign_pixel (p : PixelBuffer) (idx : Nat) (h : idx < resolution) (c : Color) (j : Nat) :
    (p.assign idx c).val.pixel j = if j = idx then c else p.pixel j := by
  simp only [assign, Checked.val_bind, Checked.val_pure, pixel, Checked.val_writeAt,
    Vector.getElem?_setIfInBounds]
  by_cases here : j = idx
  · simp [here, h]
  · simp [here, Ne.symm here]

theorem assign_safe (p : PixelBuffer) (idx : Nat) (h : idx < resolution) (c : Color) :
    (p.assign idx c).Safe := by
  simp [assign, h]

theorem shifted_lt (p : PixelBuffer) (idx : Nat) : p.shifted idx < resolution :=
  Nat.mod_lt _ (by decide)

theorem subscript_val (p : PixelBuffer) (idx : Nat) :
    (p.subscript idx).val = p.pixel (p.shifted idx) := by
  rw [subscript, Checked.val_readAt _ _ _ (p.shifted_lt idx), pixel,
    Vector.getElem?_eq_getElem (p.shifted_lt idx), Option.getD_some]

theorem subscript_safe (p : PixelBuffer) (idx : Nat) : (p.subscript idx).Safe :=
  (Checked.safe_readAt _ _ _).mpr (p.shifted_lt idx)

/-- Two buffers with the same pixels and the same shift are the same buffer. -/
theorem ext_pixel {p q : PixelBuffer} (h : ∀ j, j < resolution → p.pixel j = q.pixel j)
    (offset : p.shiftOffset = q.shiftOffset) : p = q := by
  have pixels : p.pixels = q.pixels := by
    apply Vector.ext
    intro j hj
    simpa [pixel, hj] using h j hj
  cases p
  cases q
  simp_all

end PixelBuffer

end CofferLed.Sketch
