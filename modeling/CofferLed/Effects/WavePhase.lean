import CofferLed.Sketch.Loop

/-! The wave over whole runs: it goes round the strip at the speed of the loads.

Every iteration in LOAD mode moves the wave by between a half and two LEDs, which the
limit on the total load guarantees for any data; the strip is at least that long, so
putting the wave back once per iteration keeps it on the strip. -/
namespace CofferLed.Effects
open Library CofferLed.Core Sketch

variable {N : Nat}

/-- How far the wave has been moved in some iterations. -/
def travelled (ts : List Turn) : ℚ :=
  ((ts.filter fun t => t.mode = ModeBits.load).map fun t => Firmware.increment t.data).sum

theorem travelled_append (past : List Turn) (t : Turn) :
    travelled (past ++ [t]) =
      travelled past + if t.mode = ModeBits.load then Firmware.increment t.data else 0 := by
  by_cases mode : t.mode = ModeBits.load <;> simp [travelled, mode]

/-- On the strip, where it has travelled to. -/
structure OnCourse (past : List Turn) (f : Firmware N) : Prop where
  low : 0 ≤ f.wavePos
  high : f.wavePos ≤ N
  course : ∃ rounds : Nat, f.wavePos + rounds * N = travelled past

theorem onCourse_loop (two : 2 ≤ N) (past : List Turn) (received : Bool) (clock : Clock)
    (f : Firmware N) (h : OnCourse past f) :
    OnCourse (past ++ [⟨received, f.modeState, f.rcvBuffer⟩])
      (Firmware.loop received clock f).val := by
  obtain ⟨low, high⟩ := f.moved_bounds two h.low h.high
  have moved := Firmware.loop_wavePos received clock f
  refine ⟨by rwa [moved], by rwa [moved], ?_⟩
  obtain ⟨rounds, course⟩ := h.course
  have reached : f.reached + rounds * N =
      travelled (past ++ [⟨received, f.modeState, f.rcvBuffer⟩]) := by
    rw [travelled_append, ← course, Firmware.reached]
    split <;> ring
  rw [moved, ← reached, Firmware.moved]
  split
  · refine ⟨rounds + 1, ?_⟩
    push_cast
    ring
  · exact ⟨rounds, rfl⟩

theorem onCourse_run (two : 2 ≤ N) (millis : BitVec 32) (events : List Event) :
    OnCourse ((Firmware.powerUp N millis).turns events)
      ((Firmware.powerUp N millis).after events) := by
  refine Firmware.turns_history OnCourse ?_ (onCourse_loop two) _ ?_ events
  · intro past f receiver h
    exact ⟨h.low, h.high, h.course⟩
  · exact ⟨le_refl 0, Nat.cast_nonneg N, 0, by simp [Firmware.powerUp, travelled]⟩

/-- What an iteration does to the wave. -/
theorem turn_wavePos (e : Event) (f : Firmware N) (high : f.wavePos ≤ N) (t : Turn)
    (ht : t ∈ f.receiver.turn e) :
    (t.mode = ModeBits.load →
        (Firmware.step e f).val.wavePos = f.wavePos + Firmware.increment t.data ∨
          (Firmware.step e f).val.wavePos = f.wavePos + Firmware.increment t.data - N) ∧
      (t.mode ≠ ModeBits.load → (Firmware.step e f).val.wavePos = f.wavePos) := by
  cases e with
  | rx c => cases ht
  | poll clock =>
    have hc : ¬ f.receiver.Condition := fun hc => by
      rw [Receiver.turn_body clock hc] at ht
      cases ht
    rw [Receiver.turn_finish clock hc, List.mem_singleton] at ht
    rw [Firmware.step_finish clock hc, Firmware.loop_wavePos, ht]
    refine ⟨fun load => ?_, fun other => ?_⟩
    · have reached : Firmware.reached {f with receiver := f.receiver.finish.2} =
          f.wavePos + Firmware.increment f.receiver.finish.2.buffer := if_pos load
      rw [Firmware.moved, reached]
      split
      · exact .inr rfl
      · exact .inl rfl
    · have reached : Firmware.reached {f with receiver := f.receiver.finish.2} = f.wavePos :=
        if_neg other
      rw [Firmware.moved, reached, if_neg (not_lt.mpr high)]

/-- **The wave.** After any run from power-up it is on the strip, where the LOAD iterations
so far have moved it to, modulo the length of the strip. Each of them moves it by
between a half and two LEDs; the other iterations leave it where it is. -/
theorem wave_phase (two : 2 ≤ N) (millis : BitVec 32) (events : List Event) :
    let f := (Firmware.powerUp N millis).after events
    let ts := (Firmware.powerUp N millis).turns events
    (0 ≤ f.wavePos ∧ f.wavePos ≤ N) ∧
      (∃ rounds : Nat, f.wavePos + rounds * N = travelled ts) ∧
      (∀ t : Turn, 1 / 2 ≤ Firmware.increment t.data ∧ Firmware.increment t.data ≤ 2) ∧
      ∀ e, ∀ t ∈ f.receiver.turn e,
        (t.mode = ModeBits.load →
            (Firmware.step e f).val.wavePos = f.wavePos + Firmware.increment t.data ∨
              (Firmware.step e f).val.wavePos = f.wavePos + Firmware.increment t.data - N) ∧
          (t.mode ≠ ModeBits.load → (Firmware.step e f).val.wavePos = f.wavePos) := by
  intro f ts
  have here : OnCourse ts f := onCourse_run two millis events
  exact ⟨⟨here.low, here.high⟩, here.course, fun t => Firmware.increment_bounds t.data,
    fun e t ht => turn_wavePos e f here.high t ht⟩

/-- The shortest strip, and a message of full load. -/
theorem wave_phase_two :
    let f := (Firmware.powerUp 2 0).after
      (((0xF2 :: List.replicate 16 100).flatMap fun b => [.rx b, .poll ⟨7, 7⟩]) ++ [.poll ⟨7, 7⟩])
    0 ≤ f.wavePos ∧ f.wavePos ≤ (2 : Nat) :=
  (wave_phase (le_refl 2) 0 _).1

end CofferLed.Effects
