import CofferLed.Core.NeoPixel
import CofferLed.Core.Show
import CofferLed.Library.PulseWidth

/-! A chain of LEDs behind the pin.

An LED tells the bits apart by the width of the pulses, keeps the first 24 that reach it and
passes on the others. Shown to such a chain, a strip of `N` pixels lights every LED in the
colour `getPixelColor` returns for it, wherever between a short and a long pulse the LEDs
put their threshold (`shown_colors`). -/
namespace CofferLed.Core
open Library Avr Show

/-! ### The pin -/

section
variable {pinMask : BitVec 8}

/-- The level of the pin, out of the whole port. -/
def pinLevel (pinMask port : BitVec 8) : Bool := port &&& pinMask != 0

theorem pinLevel_off {port : BitVec 8} (low : port &&& pinMask = 0) :
    pinLevel pinMask port = false := by
  simp [pinLevel, low]

theorem pinLevel_on (port : BitVec 8) (pin : pinMask ≠ 0) :
    pinLevel pinMask (port ||| pinMask) = true := by
  have set : (port ||| pinMask) &&& pinMask = pinMask := by
    ext i hi
    simpa using Or.inr
  simpa [pinLevel, set] using pin

theorem pulse_isPulse {threshold : Nat} {on off : BitVec 8} (short : 5 ≤ threshold)
    (long : threshold < 13) (high : pinLevel pinMask on = true) (low : pinLevel pinMask off = false)
    (b : Bool) : PulseWidth.IsPulse threshold b ((pulse on off b).map (pinLevel pinMask)) := by
  cases b with
  | false => exact ⟨2, 5, 13, by omega, by omega, by simpa using short, by simp [pulse, high, low]⟩
  | true => exact ⟨2, 13, 5, by omega, by omega, by simpa using long, by simp [pulse, high, low]⟩

end

/-! ### The LEDs -/

/-- The bits that each of `n` LEDs keeps. -/
def chain : Nat → List Bool → List (List Bool)
  | 0, _ => []
  | n + 1, line => line.take 24 :: chain n (line.drop 24)

/-- Eight bits of an LED's own, the first one on top. -/
def channel (own : List Bool) (k : Nat) : BitVec 32 :=
  (BitVec.ofBoolListBE ((own.drop (8 * k)).take 8)).setWidth 32

/-- The colour of an LED, in the order of `getPixelColor`. Green comes first. -/
def lampColor (own : List Bool) : BitVec 32 :=
  channel own 1 <<< 16 ||| channel own 0 <<< 8 ||| channel own 2

theorem ofBoolListBE_bits (b : BitVec 8) :
    (BitVec.ofBoolListBE (bits b)).setWidth 32 = b.setWidth 32 := by
  apply BitVec.eq_of_getLsbD_eq
  intro i hi
  rw [BitVec.getLsbD_setWidth, BitVec.getLsbD_setWidth, BitVec.getLsbD_ofBoolListBE, bits_length]
  by_cases h : i < 8
  · have place : (bits b)[8 - 1 - i]? = some (b.getLsbD i) := by
      rw [bits, List.getElem?_map, List.getElem?_range (by omega), Option.map_some,
        show 7 - (8 - 1 - i) = i by omega]
    simp [List.getD_eq_getElem?_getD, place, h]
  · simp [h, BitVec.getLsbD_of_ge b i (by omega)]

theorem channel_bits {own : List Bool} {k : Nat} {b : BitVec 8}
    (h : (own.drop (8 * k)).take 8 = bits b) : channel own k = b.setWidth 32 := by
  rw [channel, h, ofBoolListBE_bits]

theorem lampColor_bits (g r b : BitVec 8) :
    lampColor (bits g ++ bits r ++ bits b) =
      r.setWidth 32 <<< 16 ||| g.setWidth 32 <<< 8 ||| b.setWidth 32 := by
  have first : channel (bits g ++ bits r ++ bits b) 0 = g.setWidth 32 := channel_bits (by simp)
  have second : channel (bits g ++ bits r ++ bits b) 1 = r.setWidth 32 := channel_bits (by simp)
  have third : channel (bits g ++ bits r ++ bits b) 2 = b.setWidth 32 :=
    channel_bits (by simp [List.drop_append, List.drop_of_length_le])
  rw [lampColor, first, second, third]

theorem chain_bytes (N : Nat) (bytes : List (BitVec 8)) (h : bytes.length = 3 * N) :
    chain N (bytes.flatMap bits) = (List.range N).map fun n =>
      bits (bytes[n * 3]?.getD 0) ++ bits (bytes[n * 3 + 1]?.getD 0) ++
        bits (bytes[n * 3 + 2]?.getD 0) := by
  induction N generalizing bytes with
  | zero => rfl
  | succ N ih =>
    obtain ⟨g, r, b, rest, rfl⟩ : ∃ g r b rest, bytes = g :: r :: b :: rest := by
      match bytes, h with
      | g :: r :: b :: rest, _ => exact ⟨g, r, b, rest, rfl⟩
    have own : (g :: r :: b :: rest).flatMap bits =
        (bits g ++ bits r ++ bits b) ++ rest.flatMap bits := by
      simp
    have width : (bits g ++ bits r ++ bits b).length = 24 := by simp
    rw [own, chain, List.take_left' width, List.drop_left' width,
      ih rest (by simpa [Nat.mul_succ] using h), List.range_succ_eq_map, List.map_cons,
      List.map_map]
    congr 1
    apply List.map_congr_left
    intro n _
    simp [Nat.succ_mul]

/-! ### Strip and chain -/

variable {N : Nat}

/-- The bits that go out for a strip. -/
theorem decode_pixels {threshold : Nat} {on off pinMask : BitVec 8} (short : 5 ≤ threshold)
    (long : threshold < 13) (high : pinLevel pinMask on = true) (low : pinLevel pinMask off = false)
    (bytes : List (BitVec 8)) (rest : List Bool) :
    PulseWidth.decode threshold 0
        ((bytes.flatMap (pulses on off)).map (pinLevel pinMask) ++ rest) =
      bytes.flatMap bits ++ PulseWidth.decode threshold 0 rest := by
  have wave : (bytes.flatMap (pulses on off)).map (pinLevel pinMask) =
      (bytes.flatMap bits).flatMap fun b => (pulse on off b).map (pinLevel pinMask) := by
    simp only [pulses, List.map_flatMap, List.flatMap_assoc]
  rw [wave, PulseWidth.decode_pulses id _ (pulse_isPulse short long high low), List.map_id]

theorem NeoPixel.chain_pixels (p : NeoPixel N) (n : Nat) (h : n < N) :
    (chain N (p.pixels.toList.flatMap bits))[n]? =
      some (bits (p.stored (n * 3)) ++ bits (p.stored (n * 3 + 1)) ++ bits (p.stored (n * 3 + 2))) := by
  rw [chain_bytes N _ (by simp), List.getElem?_map, List.getElem?_range h]
  simp [NeoPixel.stored]

theorem pulses_level {on off byte level : BitVec 8} (h : level ∈ pulses on off byte) :
    level = on ∨ level = off := by
  obtain ⟨b, -, h⟩ := List.mem_flatMap.mp h
  cases b <;> simp only [pulse, List.mem_append, List.mem_replicate] at h <;> grind

/-- A pulse touches its own pin only. -/
theorem others_still {port pinMask byte level : BitVec 8}
    (h : level ∈ pulses (port ||| pinMask) port byte) :
    level &&& ~~~pinMask = port &&& ~~~pinMask := by
  obtain rfl | rfl := pulses_level h
  · ext i hi
    by_cases own : pinMask[i] <;> simp [own]
  · rfl

/-- What the chain makes of a strip that has been sent whole, when the pin stays low. -/
theorem NeoPixel.lit (p : NeoPixel N) (full : p.brightness = 0) {pinMask level : BitVec 8}
    (pin : pinMask ≠ 0) (low : level &&& pinMask = 0) {sent : List (BitVec 8)}
    (whole : sent ++ [level] = p.pixels.toList.flatMap (pulses (level ||| pinMask) level))
    {threshold : Nat} (short : 5 ≤ threshold) (long : threshold < 13) (pause : Nat) (i : Nat)
    (h : i < N) :
    ((chain N (PulseWidth.decode threshold 0
        (sent.map (pinLevel pinMask) ++ List.replicate (pause + 1) false)))[i]?).map lampColor =
      some (p.getPixelColor i).val := by
  have line : sent.map (pinLevel pinMask) ++ List.replicate (pause + 1) false =
      (p.pixels.toList.flatMap (pulses (level ||| pinMask) level)).map (pinLevel pinMask) ++
        (List.replicate pause false ++ []) := by
    rw [← whole, List.map_append, List.map_singleton, pinLevel_off low, List.replicate_succ,
      List.append_assoc, List.append_nil]
    rfl
  rw [line, decode_pixels short long (pinLevel_on _ pin) (pinLevel_off low),
    PulseWidth.decode_low, PulseWidth.decode, List.append_nil, chain_pixels p i h,
    Option.map_some, lampColor_bits, getPixelColor_val p full i h]

/-- **Shown is what was set.** `show` sends the strip, and then the pin stays low. Every LED
takes the colour that `getPixelColor` returns for its pixel, and there is no other pin of
the port that moves meanwhile. -/
theorem NeoPixel.shown_colors (p : NeoPixel N) (full : p.brightness = 0) (some_pixel : 0 < N)
    (fits : 3 * N < 2 ^ 16) (port pixels : BitVec 16) (pinMask : BitVec 8) (pin : pinMask ≠ 0)
    (mem : BitVec 16 → BitVec 8) (zero carry : Bool)
    (buffer : Buffer mem port pixels p.pixels.toList) (low : mem port &&& pinMask = 0)
    (threshold : Nat) (short : 5 ≤ threshold) (long : threshold < 13) (pause : Nat) :
    let begun := start port pixels pinMask (BitVec.ofNat 16 (3 * N)) mem zero carry
    ∃ enough, ∀ n, enough ≤ n →
      let sent := wave code port n begun
      (Avr.after code n begun).rest = [] ∧
        (∀ i < N, ((chain N (PulseWidth.decode threshold 0
            (sent.map (pinLevel pinMask) ++ List.replicate (pause + 1) false)))[i]?).map lampColor =
          some (p.getPixelColor i).val) ∧
        ∀ level ∈ sent, level &&& ~~~pinMask = mem port &&& ~~~pinMask := by
  intro begun
  have size : p.pixels.toList.length = 3 * N := p.pixels.length_toList
  obtain ⟨enough, stable⟩ := bytes_sent port pixels pinMask zero carry p.pixels.toList
    (List.ne_nil_of_length_pos (by omega)) (by omega) buffer low
  rw [size] at stable
  refine ⟨enough, fun n le => ?_⟩
  obtain ⟨ended, -, whole⟩ := stable n le
  refine ⟨ended, fun i hi => p.lit full pin low whole short long pause i hi, fun level among => ?_⟩
  have one : level ∈ p.pixels.toList.flatMap (pulses (mem port ||| pinMask) (mem port)) := by
    rw [← whole]
    exact List.mem_append_left _ among
  obtain ⟨byte, -, h⟩ := List.mem_flatMap.mp one
  exact others_still h

theorem NeoPixel.shown_colors_orange :
    let p : NeoPixel 2 := ((create 2).setPixelColor 1 0xff8000).val
    let mem := memory 0x2b 0x80 0x200 p.pixels.toList
    let begun := start 0x2b 0x200 0x40 6 mem false false
    ∃ enough, ∀ n, enough ≤ n → ∀ i < 2, ((chain 2 (PulseWidth.decode 9 0
        ((wave code 0x2b n begun).map (pinLevel 0x40) ++ List.replicate 301 false)))[i]?).map lampColor =
      some (p.getPixelColor i).val := by
  intro p mem begun
  obtain ⟨enough, stable⟩ := p.shown_colors (by decide) (by decide) (by decide) 0x2b 0x200 0x40
    (by decide) mem false false (buffer_memory _ _ _ _ (by decide)) (by decide) 9 (by decide)
    (by decide) 300
  exact ⟨enough, fun n le => (stable n le).2.1⟩

end CofferLed.Core
