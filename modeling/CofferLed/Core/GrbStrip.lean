import CofferLed.Core.PixelColors

/-! The strip of the sketch.

It is made once, of pixels with three bytes, and its length and type stay as they are. Painted and
dimmed in any way, it is what `NeoPixel` says of it (`grb_refines`). -/
namespace CofferLed.Core
open Library NeoPixel

namespace AdafruitNeoPixel

/-- `Color(r, g, b)` -/
def color3 (r g b : BitVec 8) : BitVec 32 :=
  r.setWidth 32 <<< 16 ||| g.setWidth 32 <<< 8 ||| b.setWidth 32

/-- `Color(r, g, b, w)` -/
def color4 (r g b w : BitVec 8) : BitVec 32 :=
  w.setWidth 32 <<< 24 ||| r.setWidth 32 <<< 16 ||| g.setWidth 32 <<< 8 ||| b.setWidth 32

theorem color3_eq (r g b : BitVec 8) : color3 r g b = color4 r g b 0 := by
  unfold color3 color4
  simp

theorem color4_bytes (r g b w : BitVec 8) :
    (color4 r g b w).setWidth 8 = b ∧ (color4 r g b w >>> 8).setWidth 8 = g ∧
      (color4 r g b w >>> 16).setWidth 8 = r ∧ (color4 r g b w >>> 24).setWidth 8 = w := by
  have shifted := shifted_byteOf (color4 r g b w)
  rw [color4, wordOf_shifted] at shifted ⊢
  obtain ⟨b0, b1, b2, b3⟩ := byteOf_wordOf b g r w
  exact ⟨(shifted 0).trans b0, (shifted 1).trans b1, (shifted 2).trans b2, (shifted 3).trans b3⟩

/-- The three `setPixelColor`s do the same. -/
theorem setPixelColor4_val (n : BitVec 16) (r g b w : BitVec 8) (p : AdafruitNeoPixel) :
    (p.setPixelColor4 n r g b w).val = (p.setPixelColor n (color4 r g b w)).val := by
  obtain ⟨blue, green, red, whit⟩ := color4_bytes r g b w
  unfold setPixelColor4
  by_cases lit : n < p.numLEDs
  · rw [if_pos lit, setPixelColor_val lit, blue, green, red]
    simp only [Checked.val_bind, store_val, white, whit, Checked.val_ite]
    unfold painted
    by_cases three : p.wOffset = p.rOffset
    · simp [three]
    · simp [three]
  · rw [if_neg lit, setPixelColor, if_neg lit]

theorem setPixelColor3_val (n : BitVec 16) (r g b : BitVec 8) (p : AdafruitNeoPixel) :
    (p.setPixelColor3 n r g b).val = (p.setPixelColor n (color3 r g b)).val := by
  have dark (brightness : BitVec 8) : (dimmed brightness 0).val = 0 := by
    unfold dimmed
    split <;> simp [mulInt]
  rw [color3_eq, ← setPixelColor4_val]
  unfold setPixelColor3 setPixelColor4
  split
  · show (store n _ _ _ 0 p).val = (store n _ _ _ (dimmed p.brightness 0).val p).val
    rw [dark]
  · rfl

variable {N : Nat}

/-- A strip is what `NeoPixel` says of it. -/
structure Refines (p : AdafruitNeoPixel) (q : NeoPixel N) : Prop where
  speed : p.is800KHz = true
  numLEDs : p.numLEDs.toNat = N
  numBytes : p.numBytes.toNat = 3 * N
  brightness : p.brightness = q.brightness
  pixels : p.pixels = some q.pixels.toList
  red : p.rOffset = NeoPixel.rOffset
  green : p.gOffset = NeoPixel.gOffset
  blue : p.bOffset = NeoPixel.bOffset
  white : p.wOffset = p.rOffset

/-- The length and the type stay as they are. -/
def Op.Paints : Op → Prop
  | .updateLength .. | .updateType .. => False
  | _ => True

/-- What such an operation is on a `NeoPixel`. -/
def Op.onGrb : Op → List NeoPixel.Op
  | .setPixelColor3 n r g b => [.setPixelColor n.toNat (color3 r g b)]
  | .setPixelColor4 n r g b w => [.setPixelColor n.toNat (color4 r g b w)]
  | .setPixelColor n c => [.setPixelColor n.toNat c]
  | .fill c first count => [.fill c first count]
  | .clear => [.clear]
  | .setBrightness b => [.setBrightness b]
  | .updateLength .. | .updateType .. | .getPixelColor _ => []

theorem refines_create (fits : 3 * N < 2 ^ 16) :
    Refines (create (BitVec.ofNat 16 N) (neoGrb + neoKhz800) true) (NeoPixel.create N) := by
  have length : (BitVec.ofNat 16 N).toNat = N := by
    rw [BitVec.toNat_ofNat]
    omega
  have bytes : (BitVec.ofNat 16 N * 3).toNat = 3 * N := by
    rw [BitVec.toNat_mul, length, show (3 : BitVec 16).toNat = 3 from rfl]
    omega
  refine ⟨rfl, length, bytes, rfl, ?_, rfl, rfl, rfl, rfl⟩
  show some (List.replicate (BitVec.ofNat 16 N * 3).toNat 0) = _
  rw [bytes]
  rfl

section
variable {p : AdafruitNeoPixel} {q : NeoPixel N} (h : Refines p q)
include h

theorem Refines.base (fits : 3 * N < 2 ^ 16) {n : BitVec 16} (lit : n.toNat < N) :
    p.base n = n.toNat * 3 := by
  rw [AdafruitNeoPixel.base, bytesPerPixel, if_pos h.white, BitVec.toNat_mul,
    show (3 : BitVec 16).toNat = 3 from rfl]
  omega

theorem Refines.lit_iff (n : BitVec 16) : n < p.numLEDs ↔ n.toNat < N := by
  rw [BitVec.lt_def, h.numLEDs]

theorem Refines.put (i : Nat) (v : BitVec 8) :
    Refines (p.put i v) {q with pixels := q.pixels.setIfInBounds i v} := by
  refine ⟨h.speed, h.numLEDs, h.numBytes, h.brightness, ?_, h.red, h.green, h.blue, h.white⟩
  rw [AdafruitNeoPixel.put, h.pixels, Vector.toList_setIfInBounds]
  rfl

theorem Refines.setPixelColor (fits : 3 * N < 2 ^ 16) (n : BitVec 16) (c : BitVec 32) :
    Refines (p.setPixelColor n c).val (q.setPixelColor n.toNat c).val := by
  by_cases lit : n.toNat < N
  · rw [setPixelColor_val ((h.lit_iff n).mpr lit), setPixelColor_store q n.toNat lit, painted,
      if_pos h.white, h.base fits lit, h.brightness, h.red, h.green, h.blue]
    exact ((h.put _ _).put _ _).put _ _
  · rw [AdafruitNeoPixel.setPixelColor, if_neg (mt (h.lit_iff n).mp lit), NeoPixel.setPixelColor,
      if_neg lit]
    exact h

theorem Refines.fill (fits : 3 * N < 2 ^ 16) (c : BitVec 32) (first count : BitVec 16) :
    Refines (p.fill c first count).val (q.fill c first count).val := by
  have start : first ≥ p.numLEDs ↔ first.toNat ≥ N := by
    rw [ge_iff_le, BitVec.le_def, h.numLEDs]
  have last : (if count = 0 then p.numLEDs
      else if first + count > p.numLEDs then p.numLEDs else first + count).toNat =
        if count = 0 then N else min (first + count).toNat N := by
    have length := h.numLEDs
    split
    · exact length
    split
    case isTrue beyond =>
      rw [gt_iff_lt, BitVec.lt_def, length] at beyond
      rw [length, Nat.min_eq_right (Nat.le_of_lt beyond)]
    case isFalse within =>
      rw [gt_iff_lt, BitVec.lt_def, length, Nat.not_lt] at within
      exact (Nat.min_eq_left within).symm
  rw [AdafruitNeoPixel.fill, NeoPixel.fill]
  by_cases beyond : first.toNat ≥ N
  · rw [if_pos beyond, if_pos (start.mpr beyond)]
    exact h
  · rw [if_neg beyond, if_neg (mt start.mp beyond)]
    dsimp only
    rw [last]
    refine Checked.forRange_related Refines (fun k hk s t related => ?_) p q h
    have short : first.toNat + k < N := by
      have least : (if count = 0 then N else min (first + count).toNat N) ≤ N := by
        split
        · exact Nat.le_refl N
        · exact Nat.min_le_right _ _
      omega
    have here : (first + BitVec.ofNat 16 k).toNat = first.toNat + k := by
      rw [BitVec.toNat_add, BitVec.toNat_ofNat]
      omega
    rw [← here]
    exact related.setPixelColor fits _ c

theorem Refines.sweep (f : BitVec 8 → BitVec 8) :
    Refines (p.sweep f).val {q with pixels := q.pixels.map f} := by
  have whole : p.numBytes.toNat = q.pixels.toList.length := by
    rw [h.numBytes, Vector.length_toList]
  refine ⟨h.speed, h.numLEDs, h.numBytes, h.brightness, ?_, h.red, h.green, h.blue, h.white⟩
  simp only [AdafruitNeoPixel.sweep, Checked.val_bind, Checked.val_pure, h.pixels, Option.map_some, whole,
    List.take_length, List.drop_length, List.append_nil, Vector.toList_map]

theorem Refines.clear : Refines p.clear.val q.clear := by
  have dark : q.pixels.map (fun _ => (0 : BitVec 8)) = Vector.replicate (3 * N) 0 := by
    ext i hi
    simp
  have swept := h.sweep fun _ => 0
  rw [dark] at swept
  exact swept

theorem Refines.setBrightness (b : BitVec 8) :
    Refines (p.setBrightness b).val (q.setBrightness b) := by
  rw [AdafruitNeoPixel.setBrightness, NeoPixel.setBrightness, Checked.val_ite, h.brightness]
  split
  · have swept := h.sweep fun c =>
      BitVec.ofNat 8 ((c.toNat * scale (q.brightness - 1) b % 2 ^ 16) >>> 8)
    exact ⟨h.speed, h.numLEDs, h.numBytes, rfl, swept.pixels, h.red, h.green, h.blue, h.white⟩
  · exact h

theorem Refines.step (fits : 3 * N < 2 ^ 16) {op : Op} (paints : op.Paints) :
    Refines (step op p).val (q.after op.onGrb) := by
  cases op with
  | updateLength => exact paints.elim
  | updateType => exact paints.elim
  | setPixelColor3 n r g b =>
    rw [AdafruitNeoPixel.step, setPixelColor3_val]
    exact h.setPixelColor fits n _
  | setPixelColor4 n r g b w =>
    rw [AdafruitNeoPixel.step, setPixelColor4_val]
    exact h.setPixelColor fits n _
  | setPixelColor n c => exact h.setPixelColor fits n c
  | getPixelColor n => exact h
  | fill c first count => exact h.fill fits c first count
  | clear => exact h.clear
  | setBrightness b => exact h.setBrightness b

theorem Refines.channel {i : Nat} (inside : i < 3 * N) :
    p.channel i = restored q.brightness (q.stored i) := by
  have bytes : p.bytes = q.pixels.toList := by rw [bytes, h.pixels, Option.getD_some]
  have here : i < p.bytes.length := by rwa [bytes, Vector.length_toList]
  have byte : p.byteAt i = q.stored i := by
    rw [byteAt, bytes, Vector.getElem?_toList, NeoPixel.stored]
  rw [AdafruitNeoPixel.channel, peek, Checked.require_bind here, Checked.pure_bind, byte,
    h.brightness]

/-- The two read the same, with the same overflows. -/
theorem Refines.getPixelColor (fits : 3 * N < 2 ^ 16) (n : BitVec 16) :
    p.getPixelColor n = q.getPixelColor n.toNat := by
  have start : n ≥ p.numLEDs ↔ n.toNat ≥ N := by
    rw [ge_iff_le, BitVec.le_def, h.numLEDs]
  rw [AdafruitNeoPixel.getPixelColor, NeoPixel.getPixelColor]
  by_cases beyond : n.toNat ≥ N
  · rw [if_pos beyond, if_pos (start.mpr beyond)]
  · have lit : n.toNat < N := Nat.not_le.mp beyond
    rw [if_neg beyond, if_neg (mt start.mp beyond), whiteChannel, if_pos h.white, h.base fits lit,
      h.red, h.green, h.blue, NeoPixel.base, Checked.require_bind (by omega), Checked.pure_bind,
      Checked.pure_bind, h.channel (by unfold NeoPixel.rOffset; omega),
      h.channel (by unfold NeoPixel.gOffset; omega), h.channel (by unfold NeoPixel.bOffset; omega)]
    simp

end

theorem refines_run (fits : 3 * N < 2 ^ 16) (ops : List Op) (paints : ∀ op ∈ ops, op.Paints)
    {p : AdafruitNeoPixel} {q : NeoPixel N} (h : Refines p q) :
    Refines (p.after ops) (q.after (ops.flatMap Op.onGrb)) := by
  induction ops generalizing p q with
  | nil => exact h
  | cons op rest ih =>
    have next := ih (fun op later => paints op (List.mem_cons_of_mem _ later))
      (h.step fits (paints op List.mem_cons_self))
    rw [List.flatMap_cons, NeoPixel.after, run_append]
    exact next

/-- **The strip of the sketch.** A strip of `N` pixels in the order of `NEO_GRB` that was created
with the memory for it, painted and dimmed in any way: its bytes are those of a `NeoPixel`, and
so is every colour read, with the overflows on the way. It is sent at 800 kHz. -/
theorem grb_refines (fits : 3 * N < 2 ^ 16) (ops : List Op) (paints : ∀ op ∈ ops, op.Paints) :
    let p := (create (BitVec.ofNat 16 N) (neoGrb + neoKhz800) true).after ops
    let q := (NeoPixel.create N).after (ops.flatMap Op.onGrb)
    Refines p q ∧ ∀ n, p.getPixelColor n = q.getPixelColor n.toNat := by
  intro p q
  have refines : Refines p q := refines_run fits ops paints (refines_create fits)
  exact ⟨refines, refines.getPixelColor fits⟩

theorem grb_refines_coffer :
    let ops := [Op.setBrightness 255, .setPixelColor 97 0xff8000, .fill 0x00ff00 3 20]
    let p := (create 98 (neoGrb + neoKhz800) true).after ops
    p.pixels = some ((NeoPixel.create 98).after (ops.flatMap Op.onGrb)).pixels.toList := by
  intro ops p
  have paints : ∀ op ∈ ops, op.Paints := by simp [ops, Op.Paints]
  exact (grb_refines (N := 98) (by decide) ops paints).1.pixels

end AdafruitNeoPixel

end CofferLed.Core
