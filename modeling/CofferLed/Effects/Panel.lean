import CofferLed.Effects.BootAnimation
import CofferLed.Effects.Frame
import CofferLed.Effects.Picture
import CofferLed.Effects.WavePhase

/-! What the panel is for, and that the firmware is that panel.

A `Panel` is a status for every node, the place of the wave and a picture. An iteration moves
it by the message that the firmware works with, and by nothing else. The firmware refines
it: after any run from power-up its animations, its wave and every LED of its strip are the
panel's after the iterations of that run (`panel_refines`). -/
namespace CofferLed.Effects
open Library CofferLed.Core Sketch

variable {N : Nat}

structure Panel (N : Nat) where
  status : Fin 16 → ℚ
  wave : ℚ
  picture : Fin N → Color

namespace Panel

/-- At power-up. -/
def dark : Panel N := ⟨fun _ => 0, 0, fun _ => ⟨0⟩⟩

/-- The status that an iteration shows for a node, before the animation goes on. -/
def begun (t : Turn) (p : Panel N) (n : Fin 16) : ℚ :=
  if t.received then Firmware.started (t.data.get n) (p.status n) else p.status n

/-- Where an iteration takes the wave. -/
def moved (t : Turn) (p : Panel N) : ℚ :=
  let reached := if t.mode = ModeBits.load then p.wave + Firmware.increment t.data else p.wave
  if reached > N then reached - N else reached

def turn (t : Turn) (p : Panel N) : Panel N where
  status n := turnStatus n t (p.status n)
  wave := p.moved t
  picture i :=
    if t.mode = ModeBits.boot then bootGlow (p.begun t (owner i))
    else if t.mode = ModeBits.load then loadGlow N t.data (p.moved t) i
    else p.picture i

def after (p : Panel N) (ts : List Turn) : Panel N := run turn p ts

theorem after_append (p : Panel N) (past : List Turn) (t : Turn) :
    p.after (past ++ [t]) = (p.after past).turn t := run_append _ p past [t]

end Panel

/-! ### One iteration -/

/-- The panel that a firmware is. -/
def panelOf (f : Firmware N) : Panel N :=
  ⟨f.bootStatus.get, f.wavePos, fun i => f.strip.pixel i⟩

section
variable (received : Bool) (clock : Clock) (f : Firmware N)

theorem boots_begun (mode : f.modeState = ModeBits.boot) (n : Fin 16) :
    (Firmware.boots received f).get n =
      (panelOf f).begun ⟨received, f.modeState, f.rcvBuffer⟩ n := by
  cases received with
  | true =>
    rw [Firmware.boots, if_pos ⟨rfl, mode⟩]
    exact Firmware.startBoots_val _ _ n.val n.isLt
  | false => rw [Firmware.boots, if_neg (by simp)]; rfl

theorem begun_bounds (p : Panel N) (t : Turn) (n : Fin 16)
    (h : 0 ≤ p.status n ∧ p.status n ≤ 1) : 0 ≤ p.begun t n ∧ p.begun t n ≤ 1 := by
  unfold Panel.begun Firmware.started
  split
  · split
    · norm_num
    · split
      · norm_num
      · exact h
  · exact h

theorem panelOf_loop (ten : 10 ≤ N)
    (status : ∀ n : Fin 16, 0 ≤ f.bootStatus.get n ∧ f.bootStatus.get n ≤ 1)
    (low : 0 ≤ f.wavePos) (high : f.wavePos ≤ N) (offset : f.pixels.shiftOffset = 4) :
    panelOf (Firmware.loop received clock f).val =
      (panelOf f).turn ⟨received, f.modeState, f.rcvBuffer⟩ := by
  have two : 2 ≤ N := Nat.le_trans (by decide) ten
  have statuses : (Firmware.loop received clock f).val.bootStatus.get =
      fun n => turnStatus n ⟨received, f.modeState, f.rcvBuffer⟩ (f.bootStatus.get n) := by
    funext n
    exact loop_status received clock f n
  rw [panelOf, statuses, Firmware.loop_wavePos, Panel.turn, Panel.mk.injEq]
  refine ⟨rfl, rfl, ?_⟩
  funext i
  by_cases boot : f.modeState = ModeBits.boot
  · obtain ⟨nonneg, le⟩ := begun_bounds (panelOf f) ⟨received, f.modeState, f.rcvBuffer⟩
      (owner i) (status (owner i))
    rw [← boots_begun received f boot] at nonneg le
    rw [if_pos boot, (Firmware.loop_boot received clock f boot).2.2,
      bootFrame_glow _ _ _ i nonneg le, boots_begun received f boot]
  · rw [if_neg boot]
    by_cases load : f.modeState = ModeBits.load
    · obtain ⟨moved_low, moved_high⟩ := f.moved_bounds two low high
      rw [if_pos load, (Firmware.loop_load received clock f load).2,
        loadFrame_glow ten offset _ moved_low moved_high _ i i.isLt]
      rfl
    · rw [if_neg load, (Firmware.loop_other received clock f boot load).2]
      rfl

theorem loop_offset :
    (Firmware.loop received clock f).val.pixels.shiftOffset = f.pixels.shiftOffset := by
  by_cases boot : f.modeState = ModeBits.boot
  · rw [(Firmware.loop_boot received clock f boot).2.1, bootFrame_offset]
  · by_cases load : f.modeState = ModeBits.load
    · rw [(Firmware.loop_load received clock f load).1, loadFrame_offset]
    · rw [(Firmware.loop_other received clock f boot load).1]

end

/-! ### The panel over whole histories -/

namespace Panel

theorem status_after (ts : List Turn) (n : Fin 16) :
    ((dark : Panel N).after ts).status n = statusOf n ts := by
  induction ts using List.reverseRecOn with
  | nil => rfl
  | append_singleton past t ih =>
    rw [after_append, statusOf_append, ← ih]
    rfl

theorem status_bounds (ts : List Turn) (n : Fin 16) :
    0 ≤ ((dark : Panel N).after ts).status n ∧ ((dark : Panel N).after ts).status n ≤ 1 := by
  rw [status_after]
  rcases statusOf_bounds n ts with off | ⟨low, high⟩
  · rw [off]
    exact ⟨le_refl 0, zero_le_one⟩
  · exact ⟨by linarith, high⟩

/-- The wave is on the strip, where it has travelled to. -/
theorem wave_after (two : 2 ≤ N) (ts : List Turn) :
    let p := (dark : Panel N).after ts
    0 ≤ p.wave ∧ p.wave ≤ N ∧ ∃ rounds : Nat, p.wave + rounds * N = travelled ts := by
  have : (2 : ℚ) ≤ N := by exact_mod_cast two
  induction ts using List.reverseRecOn with
  | nil => exact ⟨le_refl 0, Nat.cast_nonneg N, 0, by simp [after, run, dark, travelled]⟩
  | append_singleton past t ih =>
    obtain ⟨low, high, rounds, course⟩ := ih
    obtain ⟨slow, fast⟩ := Firmware.increment_bounds t.data
    rw [after_append, travelled_append, ← course]
    generalize (dark : Panel N).after past = p at low high
    have reached : (if t.mode = ModeBits.load then p.wave + Firmware.increment t.data else p.wave) =
        p.wave + if t.mode = ModeBits.load then Firmware.increment t.data else 0 := by
      split
      · rfl
      · rw [add_zero]
    have little : 0 ≤ (if t.mode = ModeBits.load then Firmware.increment t.data else 0) ∧
        (if t.mode = ModeBits.load then Firmware.increment t.data else 0) ≤ 2 := by
      split
      · exact ⟨by linarith, fast⟩
      · norm_num
    show 0 ≤ p.moved t ∧ p.moved t ≤ N ∧ ∃ rounds' : Nat, p.moved t + rounds' * N = _
    rw [moved, reached]
    generalize (if t.mode = ModeBits.load then Firmware.increment t.data else 0) = way at little
    split
    case isTrue beyond =>
      refine ⟨by linarith, by linarith, rounds + 1, ?_⟩
      push_cast
      ring
    case isFalse within => exact ⟨by linarith, by linarith, rounds, by ring⟩

theorem picture_undrawn (p : Panel N) (ts : List Turn) (undrawn : ∀ t ∈ ts, ¬ Draws t.mode) :
    (p.after ts).picture = p.picture := by
  induction ts generalizing p with
  | nil => rfl
  | cons t rest ih =>
    have here := undrawn t (List.mem_cons_self ..)
    have still : (p.turn t).picture = p.picture := by
      funext i
      exact (if_neg fun boot => here (.inl boot)).trans (if_neg fun load => here (.inr load))
    exact (ih (p.turn t) fun t' h => undrawn t' (List.mem_cons_of_mem t h)).trans still

/-- Only the last iteration that draws is seen. -/
theorem picture_last (past : List Turn) (t : Turn) (rest : List Turn)
    (undrawn : ∀ t' ∈ rest, ¬ Draws t'.mode) :
    ((dark : Panel N).after (past ++ t :: rest)).picture = ((dark.after past).turn t).picture := by
  rw [after, run_append]
  exact picture_undrawn ((dark.after past).turn t) rest undrawn

end Panel

/-- The status of a node that an iteration shows, by the history before it. -/
def shownStatus (past : List Turn) (t : Turn) (n : Fin 16) : ℚ :=
  if t.received then Firmware.started (t.data.get n) (statusOf n past) else statusOf n past

theorem Panel.picture_boot (past : List Turn) (t : Turn) (mode : t.mode = ModeBits.boot)
    (i : Fin N) :
    ((dark.after past).turn t).picture i = bootGlow (shownStatus past t (owner i)) := by
  rw [shownStatus, ← status_after (N := N)]
  exact if_pos mode

/-! ### Refinement -/

/-- A firmware that is the panel of its history, and can go on being it. -/
structure Tracks (past : List Turn) (f : Firmware N) : Prop where
  panel : panelOf f = Panel.dark.after past
  offset : f.pixels.shiftOffset = 4

theorem tracks_run (ten : 10 ≤ N) (millis : BitVec 32) (events : List Event) :
    Tracks ((Firmware.powerUp N millis).turns events)
      ((Firmware.powerUp N millis).after events) := by
  refine Firmware.turns_history Tracks ?_ ?_ _ ?_ events
  · intro past f receiver h
    exact ⟨h.panel, h.offset⟩
  · intro past received clock f h
    have status (n : Fin 16) := Panel.status_bounds (N := N) past n
    obtain ⟨low, high, _⟩ := Panel.wave_after (N := N) (by omega) past
    rw [← h.panel] at status low high
    refine ⟨?_, (loop_offset received clock f).trans h.offset⟩
    rw [panelOf_loop received clock f ten status low high h.offset, h.panel, Panel.after_append]
  · refine ⟨?_, rfl⟩
    rw [panelOf, Panel.after, run, Panel.dark, Panel.mk.injEq]
    refine ⟨?_, rfl, ?_⟩
    · funext n
      exact Vector.getElem_replicate _
    · funext i
      exact Strip.pixel_create i

theorem strip_picture (ten : 10 ≤ N) (millis : BitVec 32) (events : List Event) (i : Fin N) :
    ((Firmware.powerUp N millis).after events).strip.pixel i =
      (Panel.dark.after ((Firmware.powerUp N millis).turns events)).picture i :=
  congrArg (fun p : Panel N => p.picture i) (tracks_run ten millis events).panel

/-- **The firmware is the panel.** After any run from power-up animations, wave and LEDs are
those of the panel after the iterations of the run. So the picture is that of the last
iteration in BOOT or LOAD mode, whatever other modes came after it: in BOOT mode the statuses
that the history before it gives the nodes, in LOAD mode the loads it works with, around the
wave where the history has taken it. Before the first such iteration the strip is dark. -/
theorem panel_refines (ten : 10 ≤ N) (millis : BitVec 32) (events : List Event) :
    let f := (Firmware.powerUp N millis).after events
    let ts := (Firmware.powerUp N millis).turns events
    panelOf f = Panel.dark.after ts ∧
      (∀ past t rest, ts = past ++ t :: rest → (∀ t' ∈ rest, ¬ Draws t'.mode) →
        (t.mode = ModeBits.boot → ∀ i : Fin N,
          f.strip.pixel i = bootGlow (shownStatus past t (owner i))) ∧
        (t.mode = ModeBits.load → ∃ (wave : ℚ) (rounds : Nat), 0 ≤ wave ∧ wave ≤ N ∧
          wave + rounds * N = travelled (past ++ [t]) ∧
          ∀ i : Fin N, f.strip.pixel i = loadGlow N t.data wave i)) ∧
      ((∀ t ∈ ts, ¬ Draws t.mode) → ∀ i : Fin N, f.strip.pixel i = ⟨0⟩) := by
  intro f ts
  have shown : ∀ i : Fin N, f.strip.pixel i = (Panel.dark.after ts).picture i :=
    strip_picture ten millis events
  refine ⟨(tracks_run ten millis events).panel, ?_, fun undrawn i => ?_⟩
  · intro past t rest history undrawn
    have last := Panel.picture_last (N := N) past t rest undrawn
    rw [← history] at last
    refine ⟨fun boot i => ?_, fun load => ?_⟩
    · rw [shown, last, Panel.picture_boot past t boot]
    · obtain ⟨low, high, rounds, course⟩ := Panel.wave_after (N := N) (by omega) (past ++ [t])
      refine ⟨_, rounds, low, high, course, fun i => ?_⟩
      have boot : t.mode ≠ ModeBits.boot := by
        rw [load]
        decide
      rw [shown, last, Panel.after_append]
      exact (if_neg boot).trans (if_pos load)
  · rw [shown, Panel.picture_undrawn _ ts undrawn]
    rfl

theorem panel_refines_coffer :
    let events := Protocol.oneByOne ⟨7, 7⟩ (0xF2 :: List.replicate 16 50)
    let f := (Firmware.powerUp 98 0).after events
    panelOf f = Panel.dark.after ((Firmware.powerUp 98 0).turns events) :=
  (panel_refines (by decide) 0 _).1

end CofferLed.Effects
