import CofferLed.Core.Brightness

/-! `Adafruit_NeoPixel` for pixels of any type.

A type says where in a pixel its colours lie, and whether there is white among them; the length
of a strip and the type of its pixels can both change later, and the memory allocator may
refuse. What a strip always is, through all of it, is `Sound`. -/
namespace CofferLed.Core
open Library NeoPixel

structure AdafruitNeoPixel where
  is800KHz : Bool
  numLEDs : BitVec 16
  numBytes : BitVec 16
  brightness : BitVec 8
  /-- Null, or the bytes that were allocated. -/
  pixels : Option (List (BitVec 8))
  rOffset : Nat
  gOffset : Nat
  bOffset : Nat
  wOffset : Nat

namespace AdafruitNeoPixel

def neoKhz800 : BitVec 16 := 0

/-- A pixel order: where white, red, green and blue are. Without white its place is that of
red. -/
def order (w r g b : BitVec 16) : BitVec 16 := w <<< 6 ||| r <<< 4 ||| g <<< 2 ||| b

def neoGrb : BitVec 16 := order 1 1 0 2

/-- The orders that the library has a name for, from `NEO_RGB` to `NEO_BGRW`. -/
def orders : List (BitVec 16) :=
  [order 0 0 1 2, order 0 0 2 1, neoGrb, order 2 2 0 1, order 1 1 2 0, order 2 2 1 0,
    order 0 1 2 3, order 0 1 3 2, order 0 2 1 3, order 0 3 1 2, order 0 2 3 1, order 0 3 2 1,
    order 1 0 2 3, order 1 0 3 2, order 2 0 1 3, order 3 0 1 2, order 2 0 3 1, order 3 0 2 1,
    order 1 2 0 3, order 1 3 0 2, order 2 1 0 3, order 3 1 0 2, order 2 3 0 1, order 3 2 0 1,
    order 1 2 3 0, order 1 3 2 0, order 2 1 3 0, order 3 1 2 0, order 2 3 1 0, order 3 2 1 0]

/-! ### The class -/

/-- The constructor without arguments. -/
def empty : AdafruitNeoPixel :=
  { is800KHz := true, numLEDs := 0, numBytes := 0, brightness := 0, pixels := none,
    rOffset := 1, gOffset := 0, bOffset := 2, wOffset := 1 }

def bytesPerPixel (p : AdafruitNeoPixel) : BitVec 16 := if p.wOffset = p.rOffset then 3 else 4

/-- `granted` is whether `malloc` has the memory. -/
def updateLength (n : BitVec 16) (granted : Bool) (p : AdafruitNeoPixel) : AdafruitNeoPixel :=
  let numBytes := n * p.bytesPerPixel
  if granted then
    {p with numBytes, pixels := some (List.replicate numBytes.toNat 0), numLEDs := n}
  else {p with numBytes := 0, pixels := none, numLEDs := 0}

def updateType (t : BitVec 16) (granted : Bool) (p : AdafruitNeoPixel) : AdafruitNeoPixel :=
  let oldThreeBytesPerPixel := decide (p.wOffset = p.rOffset)
  let p :=
    {p with
      wOffset := (t >>> 6 &&& 0b11).toNat
      rOffset := (t >>> 4 &&& 0b11).toNat
      gOffset := (t >>> 2 &&& 0b11).toNat
      bOffset := (t &&& 0b11).toNat
      is800KHz := t < 256}
  let newThreeBytesPerPixel := decide (p.wOffset = p.rOffset)
  if p.pixels.isSome && newThreeBytesPerPixel != oldThreeBytesPerPixel then
    p.updateLength p.numLEDs granted
  else p

/-- The constructor. It sets every field, so that those of `empty` play no part. -/
def create (n t : BitVec 16) (granted : Bool) : AdafruitNeoPixel :=
  (empty.updateType t granted).updateLength n granted

def bytes (p : AdafruitNeoPixel) : List (BitVec 8) := p.pixels.getD []

def byteAt (p : AdafruitNeoPixel) (i : Nat) : BitVec 8 := p.bytes[i]?.getD 0

def put (i : Nat) (v : BitVec 8) (p : AdafruitNeoPixel) : AdafruitNeoPixel :=
  {p with pixels := p.pixels.map (·.set i v)}

/-- `pixels[i]` and `pixels[i] = v`, which nothing checks. Outside of the buffer, where the access
is logged, nothing is written here. -/
def peek (i : Nat) (p : AdafruitNeoPixel) : Exec (BitVec 8) := do
  Checked.require (i < p.bytes.length) .index
  pure (p.byteAt i)

def poke (i : Nat) (v : BitVec 8) (p : AdafruitNeoPixel) : Exec AdafruitNeoPixel := do
  Checked.require (i < p.bytes.length) .index
  pure (p.put i v)

/-- `&pixels[n * 3]` or `&pixels[n * 4]`, a product of `uint16_t`s. -/
def base (n : BitVec 16) (p : AdafruitNeoPixel) : Nat := (n * p.bytesPerPixel).toNat

/-- `p[wOffset] = w`, where there is white. -/
def storeWhite (n : BitVec 16) (w : BitVec 8) (p : AdafruitNeoPixel) : Exec AdafruitNeoPixel :=
  if p.wOffset = p.rOffset then pure p else poke (p.base n + p.wOffset) w p

/-- What the three `setPixelColor`s end in. -/
def store (n : BitVec 16) (r g b w : BitVec 8) (p : AdafruitNeoPixel) : Exec AdafruitNeoPixel := do
  let p ← storeWhite n w p
  let p ← poke (p.base n + p.rOffset) r p
  let p ← poke (p.base n + p.gOffset) g p
  poke (p.base n + p.bOffset) b p

/-- `setPixelColor(n, r, g, b)` -/
def setPixelColor3 (n : BitVec 16) (r g b : BitVec 8) (p : AdafruitNeoPixel) :
    Exec AdafruitNeoPixel :=
  if n < p.numLEDs then do
    let r ← dimmed p.brightness r
    let g ← dimmed p.brightness g
    let b ← dimmed p.brightness b
    p.store n r g b 0
  else pure p

/-- `setPixelColor(n, r, g, b, w)` -/
def setPixelColor4 (n : BitVec 16) (r g b w : BitVec 8) (p : AdafruitNeoPixel) :
    Exec AdafruitNeoPixel :=
  if n < p.numLEDs then do
    let r ← dimmed p.brightness r
    let g ← dimmed p.brightness g
    let b ← dimmed p.brightness b
    let w ← dimmed p.brightness w
    p.store n r g b w
  else pure p

/-- The white of a colour, where there is white. -/
def white (c : BitVec 32) (p : AdafruitNeoPixel) : Exec (BitVec 8) :=
  if p.wOffset = p.rOffset then pure 0 else dimmed p.brightness ((c >>> 24).setWidth 8)

/-- `setPixelColor(n, c)` -/
def setPixelColor (n : BitVec 16) (c : BitVec 32) (p : AdafruitNeoPixel) :
    Exec AdafruitNeoPixel :=
  if n < p.numLEDs then do
    let r ← dimmed p.brightness ((c >>> 16).setWidth 8)
    let g ← dimmed p.brightness ((c >>> 8).setWidth 8)
    let b ← dimmed p.brightness (c.setWidth 8)
    let w ← white c p
    p.store n r g b w
  else pure p

/-- A stored byte, as it is returned. -/
def channel (i : Nat) (p : AdafruitNeoPixel) : Exec (BitVec 32) := do
  let v ← p.peek i
  restored p.brightness v

def whiteChannel (n : BitVec 16) (p : AdafruitNeoPixel) : Exec (BitVec 32) :=
  if p.wOffset = p.rOffset then pure 0 else p.channel (p.base n + p.wOffset)

def getPixelColor (n : BitVec 16) (p : AdafruitNeoPixel) : Exec (BitVec 32) :=
  if n ≥ p.numLEDs then pure 0
  else do
    let w ← p.whiteChannel n
    let r ← p.channel (p.base n + p.rOffset)
    let g ← p.channel (p.base n + p.gOffset)
    let b ← p.channel (p.base n + p.bOffset)
    pure (w <<< 24 ||| r <<< 16 ||| g <<< 8 ||| b)

def fill (c : BitVec 32) (first count : BitVec 16) (p : AdafruitNeoPixel) :
    Exec AdafruitNeoPixel :=
  if first ≥ p.numLEDs then pure p
  else
    let last :=
      if count = 0 then p.numLEDs
      else if first + count > p.numLEDs then p.numLEDs
      else first + count
    Checked.forRange (last.toNat - first.toNat)
      (fun k p => p.setPixelColor (first + BitVec.ofNat 16 k) c) p

/-- A pass over the buffer, byte by byte. -/
def sweep (f : BitVec 8 → BitVec 8) (p : AdafruitNeoPixel) : Exec AdafruitNeoPixel := do
  Checked.require (p.numBytes.toNat ≤ p.bytes.length) .index
  pure {p with
    pixels := p.pixels.map fun bs => (bs.take p.numBytes.toNat).map f ++ bs.drop p.numBytes.toNat}

def clear (p : AdafruitNeoPixel) : Exec AdafruitNeoPixel := p.sweep fun _ => 0

def setBrightness (b : BitVec 8) (p : AdafruitNeoPixel) : Exec AdafruitNeoPixel :=
  let newBrightness := b + 1
  if newBrightness ≠ p.brightness then do
    let oldBrightness := p.brightness - 1
    let p ← p.sweep fun c =>
      BitVec.ofNat 8 ((c.toNat * scale oldBrightness b % 2 ^ 16) >>> 8)
    pure {p with brightness := newBrightness}
  else pure p

inductive Op where
  | updateLength (n : BitVec 16) (granted : Bool)
  | updateType (t : BitVec 16) (granted : Bool)
  | setPixelColor3 (n : BitVec 16) (r g b : BitVec 8)
  | setPixelColor4 (n : BitVec 16) (r g b w : BitVec 8)
  | setPixelColor (n : BitVec 16) (c : BitVec 32)
  | getPixelColor (n : BitVec 16)
  | fill (c : BitVec 32) (first count : BitVec 16)
  | clear
  | setBrightness (b : BitVec 8)

def step : Op → AdafruitNeoPixel → Exec AdafruitNeoPixel
  | .updateLength n granted, p => pure (p.updateLength n granted)
  | .updateType t granted, p => pure (p.updateType t granted)
  | .setPixelColor3 n r g b, p => p.setPixelColor3 n r g b
  | .setPixelColor4 n r g b w, p => p.setPixelColor4 n r g b w
  | .setPixelColor n c, p => p.setPixelColor n c
  | .getPixelColor n, p => do
    let _ ← p.getPixelColor n
    pure p
  | .fill c first count, p => p.fill c first count
  | .clear, p => p.clear
  | .setBrightness b, p => p.setBrightness b

def after (p : AdafruitNeoPixel) (ops : List Op) : AdafruitNeoPixel :=
  run (fun op p => (step op p).val) p ops

/-- Both constructors are runs from `empty`. -/
theorem create_eq (n t : BitVec 16) (granted : Bool) :
    create n t granted = empty.after [.updateType t granted, .updateLength n granted] := rfl

/-! ### What painting leaves alone -/

section
variable (i : Nat) (v : BitVec 8) (p : AdafruitNeoPixel)

@[simp] theorem put_rOffset : (p.put i v).rOffset = p.rOffset := rfl
@[simp] theorem put_gOffset : (p.put i v).gOffset = p.gOffset := rfl
@[simp] theorem put_bOffset : (p.put i v).bOffset = p.bOffset := rfl
@[simp] theorem put_wOffset : (p.put i v).wOffset = p.wOffset := rfl
@[simp] theorem put_base (n : BitVec 16) : (p.put i v).base n = p.base n := rfl

@[simp] theorem put_bytes : (p.put i v).bytes = p.bytes.set i v := by
  unfold put bytes
  cases p.pixels <;> rfl

end

/-- The bytes of a pixel, each in its place. -/
def painted (n : BitVec 16) (r g b w : BitVec 8) (p : AdafruitNeoPixel) : AdafruitNeoPixel :=
  (((if p.wOffset = p.rOffset then p else p.put (p.base n + p.wOffset) w).put
    (p.base n + p.rOffset) r).put (p.base n + p.gOffset) g).put (p.base n + p.bOffset) b

theorem store_val (n : BitVec 16) (r g b w : BitVec 8) (p : AdafruitNeoPixel) :
    (p.store n r g b w).val = p.painted n r g b w := by
  unfold store storeWhite painted
  by_cases three : p.wOffset = p.rOffset
  · simp [three, poke]
  · simp [three, poke]

/-- Everything but the colours. -/
def blank (p : AdafruitNeoPixel) : AdafruitNeoPixel :=
  {p with brightness := 0, pixels := p.pixels.map fun bs => List.replicate bs.length 0}

theorem put_blank (i : Nat) (v : BitVec 8) (p : AdafruitNeoPixel) : (p.put i v).blank = p.blank := by
  simp [put, blank, Function.comp_def]

theorem length_blank (p : AdafruitNeoPixel) : p.blank.bytes.length = p.bytes.length := by
  unfold bytes blank
  cases p.pixels <;> simp

/-- Two strips that differ in their colours only. -/
structure Alike (p q : AdafruitNeoPixel) : Prop where
  numLEDs : q.numLEDs = p.numLEDs
  numBytes : q.numBytes = p.numBytes
  bytesPerPixel : q.bytesPerPixel = p.bytesPerPixel
  length : q.bytes.length = p.bytes.length
  null : q.pixels = none ↔ p.pixels = none
  rOffset : q.rOffset = p.rOffset
  gOffset : q.gOffset = p.gOffset
  bOffset : q.bOffset = p.bOffset
  wOffset : q.wOffset = p.wOffset

theorem Alike.of_blank {p q : AdafruitNeoPixel} (same : q.blank = p.blank) : Alike p q := by
  have field {α : Type} (get : AdafruitNeoPixel → α) : get q.blank = get p.blank :=
    congrArg get same
  refine ⟨field AdafruitNeoPixel.numLEDs, field AdafruitNeoPixel.numBytes,
    field AdafruitNeoPixel.bytesPerPixel, ?_, ?_, field AdafruitNeoPixel.rOffset,
    field AdafruitNeoPixel.gOffset, field AdafruitNeoPixel.bOffset, field AdafruitNeoPixel.wOffset⟩
  · rw [← length_blank, same, length_blank]
  · have null : q.pixels.isNone = p.pixels.isNone := by
      simpa [blank] using field fun p => p.pixels.isNone
    rw [← Option.isNone_iff_eq_none, null, Option.isNone_iff_eq_none]

theorem store_blank (n : BitVec 16) (r g b w : BitVec 8) (p : AdafruitNeoPixel) :
    (p.store n r g b w).val.blank = p.blank := by
  rw [store_val, painted, put_blank, put_blank, put_blank]
  split
  · rfl
  · exact put_blank _ _ p

theorem setPixelColor3_blank (n : BitVec 16) (r g b : BitVec 8) (p : AdafruitNeoPixel) :
    (p.setPixelColor3 n r g b).val.blank = p.blank := by
  rw [setPixelColor3, Checked.val_ite]
  split
  · exact store_blank n _ _ _ _ p
  · rfl

theorem setPixelColor4_blank (n : BitVec 16) (r g b w : BitVec 8) (p : AdafruitNeoPixel) :
    (p.setPixelColor4 n r g b w).val.blank = p.blank := by
  rw [setPixelColor4, Checked.val_ite]
  split
  · exact store_blank n _ _ _ _ p
  · rfl

theorem setPixelColor_blank (n : BitVec 16) (c : BitVec 32) (p : AdafruitNeoPixel) :
    (p.setPixelColor n c).val.blank = p.blank := by
  rw [setPixelColor, Checked.val_ite]
  split
  · exact store_blank n _ _ _ _ p
  · rfl

theorem fill_blank (c : BitVec 32) (first count : BitVec 16) (p : AdafruitNeoPixel) :
    (p.fill c first count).val.blank = p.blank := by
  rw [fill, Checked.val_ite]
  split
  · rfl
  · exact Checked.forRange_keep blank (fun k _ q => setPixelColor_blank _ c q) p

theorem sweep_blank (f : BitVec 8 → BitVec 8) (p : AdafruitNeoPixel) :
    (p.sweep f).val.blank = p.blank := by
  have length (bs : List (BitVec 8)) :
      min p.numBytes.toNat bs.length + (bs.length - p.numBytes.toNat) = bs.length := by
    omega
  simp [sweep, blank, Function.comp_def, length]

theorem setBrightness_blank (b : BitVec 8) (p : AdafruitNeoPixel) :
    (p.setBrightness b).val.blank = p.blank := by
  rw [setBrightness, Checked.val_ite]
  split
  · exact sweep_blank _ p
  · rfl

/-! ### The buffer -/

/-- What holds of a strip at any time. -/
structure Sound (p : AdafruitNeoPixel) : Prop where
  length : p.bytes.length = p.numBytes.toNat
  null : p.pixels = none → p.numLEDs = 0
  size : p.numBytes = p.numLEDs * p.bytesPerPixel
  offsets : p.rOffset < 4 ∧ p.gOffset < 4 ∧ p.bOffset < 4 ∧ p.wOffset < 4

theorem sound_empty : Sound empty := ⟨rfl, fun _ => rfl, rfl, by decide⟩

theorem Sound.of_blank {p q : AdafruitNeoPixel} (h : Sound p) (same : q.blank = p.blank) :
    Sound q := by
  have alike := Alike.of_blank same
  refine ⟨?_, fun null => ?_, ?_, ?_⟩
  · rw [alike.length, alike.numBytes, h.length]
  · rw [alike.numLEDs, h.null (alike.null.mp null)]
  · rw [alike.numBytes, alike.numLEDs, alike.bytesPerPixel, h.size]
  · rw [alike.rOffset, alike.gOffset, alike.bOffset, alike.wOffset]
    exact h.offsets

/-- Nothing but the offsets is kept, so nothing else has to be right before. -/
theorem sound_updateLength {p : AdafruitNeoPixel}
    (offsets : p.rOffset < 4 ∧ p.gOffset < 4 ∧ p.bOffset < 4 ∧ p.wOffset < 4) (n : BitVec 16)
    (granted : Bool) : Sound (p.updateLength n granted) := by
  unfold updateLength
  dsimp only
  split
  · exact ⟨List.length_replicate, nofun, rfl, offsets⟩
  · exact ⟨rfl, fun _ => rfl, (BitVec.zero_mul).symm, offsets⟩

theorem offset_lt (t : BitVec 16) : (t &&& 0b11).toNat < 4 := by
  have le : (t &&& 0b11).toNat ≤ (0b11 : BitVec 16).toNat := by
    rw [BitVec.toNat_and]
    exact Nat.and_le_right
  exact Nat.lt_succ_of_le le

theorem sound_updateType {p : AdafruitNeoPixel} (h : Sound p) (t : BitVec 16) (granted : Bool) :
    Sound (p.updateType t granted) := by
  have offsets : (t >>> 4 &&& 0b11).toNat < 4 ∧ (t >>> 2 &&& 0b11).toNat < 4 ∧
      (t &&& 0b11).toNat < 4 ∧ (t >>> 6 &&& 0b11).toNat < 4 :=
    ⟨offset_lt _, offset_lt _, offset_lt _, offset_lt _⟩
  unfold updateType
  dsimp only
  split
  · exact sound_updateLength offsets _ granted
  case isFalse kept =>
    refine ⟨h.length, h.null, ?_, offsets⟩
    cases held : p.pixels with
    | none =>
      have none : p.numLEDs = 0 := h.null held
      have nothing : p.numBytes = 0 := by simpa [none] using h.size
      simp [none, nothing]
    | some bs =>
      rw [held] at kept
      have same : decide ((t >>> 6 &&& 0b11).toNat = (t >>> 4 &&& 0b11).toNat) =
          decide (p.wOffset = p.rOffset) := by
        simpa using kept
      have size := h.size
      unfold bytesPerPixel at size ⊢
      dsimp only
      rw [size]
      congr 1
      rw [decide_eq_decide] at same
      by_cases three : p.wOffset = p.rOffset
      · rw [if_pos three, if_pos (same.mpr three)]
      · rw [if_neg three, if_neg (mt same.mp three)]

theorem sound_step (op : Op) (p : AdafruitNeoPixel) (h : Sound p) : Sound (step op p).val := by
  cases op with
  | updateLength n granted => exact sound_updateLength h.offsets n granted
  | updateType t granted => exact sound_updateType h t granted
  | setPixelColor3 n r g b => exact h.of_blank (setPixelColor3_blank n r g b p)
  | setPixelColor4 n r g b w => exact h.of_blank (setPixelColor4_blank n r g b w p)
  | setPixelColor n c => exact h.of_blank (setPixelColor_blank n c p)
  | getPixelColor n => exact h
  | fill c first count => exact h.of_blank (fill_blank c first count p)
  | clear => exact h.of_blank (sweep_blank _ p)
  | setBrightness b => exact h.of_blank (setBrightness_blank b p)

theorem sound_run (ops : List Op) : Sound (empty.after ops) :=
  run_invariant Sound sound_step empty sound_empty ops

end AdafruitNeoPixel

end CofferLed.Core
