import CofferLed.Sketch.Loop
import Mathlib.Data.List.DropRight

/-! The boot animations over whole runs.

The status of a node is a function of the iterations so far: of those since the node was
last reset, from the first that starts it on, the ones in BOOT mode are counted
(`statusOf`). The source changes a status in two places of one iteration, under
different conditions; `turnStatus` says what both come to. -/
namespace CofferLed.Effects
open Library CofferLed.Core Sketch

/-- An iteration that received a boot message with node `i` off, or on. -/
def Resets (i : Fin 16) (t : Turn) : Prop :=
  t.received = true ∧ t.mode = ModeBits.boot ∧ t.data.get i = 0

def Starts (i : Fin 16) (t : Turn) : Prop :=
  t.received = true ∧ t.mode = ModeBits.boot ∧ t.data.get i ≠ 0

instance (i : Fin 16) (t : Turn) : Decidable (Resets i t) := by unfold Resets; infer_instance
instance (i : Fin 16) (t : Turn) : Decidable (Starts i t) := by unfold Starts; infer_instance

/-- Since the last reset, from the first start on. -/
def animated (i : Fin 16) (ts : List Turn) : List Turn :=
  (ts.rtakeWhile fun t => ¬ Resets i t).dropWhile fun t => ¬ Starts i t

def bootIterations (ts : List Turn) : Nat := ts.countP fun t => t.mode = ModeBits.boot

/-- The status of node `i` after some iterations. -/
def statusOf (i : Fin 16) (ts : List Turn) : ℚ :=
  if animated i ts = [] then 0 else min 1 ((bootIterations (animated i ts) + 1) / 100)

/-! ### One iteration -/

/-- What an iteration makes of the status `b` of node `i`. -/
def turnStatus (i : Fin 16) (t : Turn) (b : ℚ) : ℚ :=
  if t.mode = ModeBits.boot then
    advanced (if t.received = true then Firmware.started (t.data.get i) b else b)
  else b

theorem loop_status {N : Nat} (received : Bool) (clock : Clock) (f : Firmware N) (i : Fin 16) :
    (Firmware.loop received clock f).val.bootStatus.get i =
      turnStatus i ⟨received, f.modeState, f.rcvBuffer⟩ (f.bootStatus.get i) := by
  by_cases mode : f.modeState = ModeBits.boot
  · have begun : (Firmware.boots received f).get i =
        if received = true then Firmware.started (f.rcvBuffer.get i) (f.bootStatus.get i)
        else f.bootStatus.get i := by
      unfold Firmware.boots
      by_cases hr : received = true
      · rw [if_pos ⟨hr, mode⟩, if_pos hr]
        exact Firmware.startBoots_val _ _ i.val i.isLt
      · rw [if_neg fun h => hr h.1, if_neg hr]
    have frame := bootFrame_boot (Firmware.boots received f) f.pixels f.strip i.val i.isLt
    rw [(Firmware.loop_boot received clock f mode).1, turnStatus, if_pos mode, ← begun]
    exact frame
  · rw [Firmware.loop_bootStatus received clock f mode, turnStatus, if_neg mode]

/-! ### The history -/

section
variable (i : Fin 16) (past : List Turn) (t : Turn)

theorem animated_reset (h : Resets i t) : animated i (past ++ [t]) = [] := by
  rw [animated, List.rtakeWhile_concat_neg _ _ _ (by simp [h]), List.dropWhile_nil]

/-- Without a reset an iteration is added to those since the start, or is the start. -/
theorem animated_append (h : ¬ Resets i t) :
    animated i (past ++ [t]) =
      if animated i past = [] then if Starts i t then [t] else [] else animated i past ++ [t] := by
  rw [animated, List.rtakeWhile_concat_pos _ _ _ (by simp [h]), List.dropWhile_append]
  simp only [List.isEmpty_iff, animated]
  by_cases first : Starts i t <;> simp [first]

theorem bootIterations_append (ts : List Turn) :
    bootIterations (ts ++ [t]) = bootIterations ts + if t.mode = ModeBits.boot then 1 else 0 := by
  by_cases mode : t.mode = ModeBits.boot <;> simp [bootIterations, mode]

theorem statusOf_bounds (ts : List Turn) :
    statusOf i ts = 0 ∨ 1 / 100 ≤ statusOf i ts ∧ statusOf i ts ≤ 1 := by
  unfold statusOf
  split
  · exact .inl rfl
  · have count : (0 : ℚ) ≤ bootIterations (animated i ts) := Nat.cast_nonneg _
    exact .inr ⟨le_min (by norm_num) (by linarith), min_le_left _ _⟩

theorem statusOf_eq_zero (ts : List Turn) : statusOf i ts = 0 ↔ animated i ts = [] := by
  unfold statusOf
  split
  case isTrue none_yet => exact iff_of_true rfl none_yet
  case isFalse some_yet =>
    have count : (0 : ℚ) ≤ bootIterations (animated i ts) := Nat.cast_nonneg _
    have pos : 0 < min (1 : ℚ) ((bootIterations (animated i ts) + 1) / 100) :=
      lt_min one_pos (by linarith)
    exact iff_of_false pos.ne' some_yet

/-- Outside BOOT mode nothing happens. -/
theorem statusOf_frozen (mode : t.mode ≠ ModeBits.boot) :
    statusOf i (past ++ [t]) = statusOf i past := by
  have no_reset : ¬ Resets i t := fun h => mode h.2.1
  have no_start : ¬ Starts i t := fun h => mode h.2.1
  by_cases none_yet : animated i past = []
  · simp [statusOf, animated_append i past t no_reset, none_yet, no_start]
  · simp [statusOf, animated_append i past t no_reset, none_yet, bootIterations_append, mode]

/-- An animation under way goes on, whatever is received but a reset. -/
theorem statusOf_running (mode : t.mode = ModeBits.boot) (no_reset : ¬ Resets i t)
    (running : statusOf i past ≠ 0) :
    statusOf i (past ++ [t]) = min 1 (statusOf i past + 1 / 100) := by
  rw [Ne, statusOf_eq_zero] at running
  have next : statusOf i (past ++ [t]) =
      min 1 (((bootIterations (animated i past) : ℚ) + 1) / 100 + 1 / 100) := by
    rw [statusOf, animated_append i past t no_reset, if_neg running, if_neg (by simp),
      bootIterations_append, if_pos mode]
    congr 1
    push_cast
    ring
  rw [next, statusOf, if_neg running]
  rcases le_total ((bootIterations (animated i past) + 1 : ℚ) / 100) 1 with early | late
  · rw [min_eq_right early]
  · rw [min_eq_left late, min_eq_left (by linarith), min_eq_left (by norm_num)]

/-- An animation is complete or at least one hundredth short of it. -/
theorem statusOf_lt_one (ts : List Turn) (h : statusOf i ts < 1) : statusOf i ts ≤ 99 / 100 := by
  by_cases off : animated i ts = []
  · rw [(statusOf_eq_zero i ts).mpr off]
    norm_num
  · rw [statusOf, if_neg off, min_lt_iff, or_iff_right (lt_irrefl 1), div_lt_one (by norm_num)] at h
    have few : bootIterations (animated i ts) + 1 ≤ 99 := by
      have : bootIterations (animated i ts) + 1 < 100 := by exact_mod_cast h
      omega
    have few : (bootIterations (animated i ts) + 1 : ℚ) ≤ 99 := by exact_mod_cast few
    rw [statusOf, if_neg off]
    exact (min_le_right _ _).trans (by linarith)

theorem statusOf_append : statusOf i (past ++ [t]) = turnStatus i t (statusOf i past) := by
  unfold turnStatus
  by_cases mode : t.mode = ModeBits.boot
  case neg => rw [if_neg mode, statusOf_frozen i past t mode]
  rw [if_pos mode]
  by_cases reset : Resets i t
  · have gone : statusOf i (past ++ [t]) = 0 := (statusOf_eq_zero i _).mpr (animated_reset i past t reset)
    rw [gone, if_pos reset.1, Firmware.started, if_pos reset.2.2, advanced, if_neg (by norm_num)]
  · by_cases off : statusOf i past = 0
    · have none_yet := (statusOf_eq_zero i past).mp off
      by_cases start : Starts i t
      · have first : statusOf i (past ++ [t]) = 2 / 100 := by
          rw [statusOf, animated_append i past t reset, if_pos none_yet, if_pos start,
            if_neg (by simp)]
          norm_num [bootIterations, mode]
        rw [first, off, if_pos start.1, Firmware.started, if_neg start.2.2, if_pos rfl, advanced,
          if_pos (by norm_num)]
        norm_num
      · have still : statusOf i (past ++ [t]) = 0 := by
          rw [statusOf_eq_zero, animated_append i past t reset, if_pos none_yet, if_neg start]
        have silent : ¬ t.received = true := fun hr => by
          by_cases byte : t.data.get i = 0
          · exact reset ⟨hr, mode, byte⟩
          · exact start ⟨hr, mode, byte⟩
        rw [still, off, if_neg silent, advanced, if_neg (by norm_num)]
    · have kept : (if t.received = true then Firmware.started (t.data.get i) (statusOf i past)
          else statusOf i past) = statusOf i past := by
        split
        case isTrue hr =>
          have on : t.data.get i ≠ 0 := fun byte => reset ⟨hr, mode, byte⟩
          rw [Firmware.started, if_neg on, if_neg off]
        case isFalse => rfl
      obtain ⟨low, high⟩ := (statusOf_bounds i past).resolve_left off
      rw [statusOf_running i past t mode reset off, kept, advanced]
      by_cases done : statusOf i past < 1
      · have short := statusOf_lt_one i past done
        rw [if_pos ⟨by linarith, done⟩, min_eq_right (by linarith)]
      · rw [if_neg fun h => done h.2, min_eq_left (by linarith), le_antisymm high (not_lt.mp done)]

/-- The 99th BOOT iteration completes an animation. -/
theorem statusOf_complete (ts : List Turn) (h : 99 ≤ bootIterations (animated i ts)) :
    statusOf i ts = 1 := by
  have some_yet : animated i ts ≠ [] := by
    intro none_yet
    rw [none_yet] at h
    exact absurd h (by decide)
  have count : (99 : ℚ) ≤ bootIterations (animated i ts) := by exact_mod_cast h
  rw [statusOf, if_neg some_yet, min_eq_left (by linarith)]

theorem statusOf_stays (complete : statusOf i past = 1) (no_reset : ¬ Resets i t) :
    statusOf i (past ++ [t]) = 1 := by
  by_cases mode : t.mode = ModeBits.boot
  · rw [statusOf_running i past t mode no_reset (by rw [complete]; exact one_ne_zero), complete,
      min_eq_left (by norm_num)]
  · rw [statusOf_frozen i past t mode, complete]

end

/-! ### What a status depends on -/

/-- Two iterations that node `i` cannot tell apart: they may differ in the bytes of the
other nodes, and outside BOOT mode in all of them. -/
structure SameFor (i : Fin 16) (t t' : Turn) : Prop where
  received : t.received = t'.received
  mode : t.mode = t'.mode
  byte : t.mode = ModeBits.boot → (t.data.get i = 0 ↔ t'.data.get i = 0)

theorem turnStatus_same {i : Fin 16} {t t' : Turn} (h : SameFor i t t') (b : ℚ) :
    turnStatus i t b = turnStatus i t' b := by
  unfold turnStatus
  rw [← h.received, ← h.mode]
  by_cases mode : t.mode = ModeBits.boot
  · simp only [Firmware.started, h.byte mode]
  · rw [if_neg mode, if_neg mode]

theorem statusOf_eq_foldl (i : Fin 16) (ts : List Turn) :
    statusOf i ts = ts.foldl (fun b t => turnStatus i t b) 0 := by
  induction ts using List.reverseRecOn with
  | nil => rfl
  | append_singleton past t ih => rw [statusOf_append, ih, List.foldl_concat]

theorem statusOf_same {i : Fin 16} {ts ts' : List Turn} (h : List.Forall₂ (SameFor i) ts ts') :
    statusOf i ts = statusOf i ts' := by
  rw [statusOf_eq_foldl, statusOf_eq_foldl]
  generalize (0 : ℚ) = b
  induction h generalizing b with
  | nil => rfl
  | cons here _ ih =>
    rw [List.foldl_cons, List.foldl_cons, turnStatus_same here]
    exact ih _

/-! ### The firmware -/

variable {N : Nat}

theorem bootStatus_run (millis : BitVec 32) (events : List Event) (i : Fin 16) :
    ((Firmware.powerUp N millis).after events).bootStatus.get i =
      statusOf i ((Firmware.powerUp N millis).turns events) := by
  refine Firmware.turns_history
    (fun past (f : Firmware N) => f.bootStatus.get i = statusOf i past) ?_ ?_ _ ?_ events
  · intro past f receiver h
    exact h
  · intro past received clock f h
    rw [loop_status, h, statusOf_append]
  · exact Vector.getElem_replicate _

/-- **Boot animations.** After any run from power-up the status of a node counts the BOOT
iterations since it was first switched on after its last reset. It is 0 or between one
hundredth and 1; other modes freeze it; a message that leaves the node on neither
restarts it nor speeds it up; it is complete after 99 BOOT iterations and stays so until
a reset; and it depends on no other node. -/
theorem boot_animation (millis : BitVec 32) (events : List Event) (i : Fin 16) :
    let f := Firmware.powerUp N millis
    let ts := f.turns events
    (f.after events).bootStatus.get i = statusOf i ts ∧
      (statusOf i ts = 0 ∨ 1 / 100 ≤ statusOf i ts ∧ statusOf i ts ≤ 1) ∧
      (∀ t, t.mode ≠ ModeBits.boot → statusOf i (ts ++ [t]) = statusOf i ts) ∧
      (∀ t, t.mode = ModeBits.boot → ¬ Resets i t → statusOf i ts ≠ 0 →
        statusOf i (ts ++ [t]) = min 1 (statusOf i ts + 1 / 100)) ∧
      (99 ≤ bootIterations (animated i ts) → statusOf i ts = 1) ∧
      (statusOf i ts = 1 → ∀ t, ¬ Resets i t → statusOf i (ts ++ [t]) = 1) ∧
      ∀ (millis' : BitVec 32) (events' : List Event),
        List.Forall₂ (SameFor i) ts ((Firmware.powerUp N millis').turns events') →
          (f.after events).bootStatus.get i =
            ((Firmware.powerUp N millis').after events').bootStatus.get i := by
  intro f ts
  refine ⟨bootStatus_run millis events i, statusOf_bounds i ts, statusOf_frozen i ts,
    statusOf_running i ts, statusOf_complete i ts, fun complete t => statusOf_stays i ts t complete, ?_⟩
  intro millis' events' same
  rw [bootStatus_run, bootStatus_run]
  exact statusOf_same same

end CofferLed.Effects
