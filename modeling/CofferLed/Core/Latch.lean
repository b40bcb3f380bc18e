import CofferLed.Core.Wiring

/-! The pause between two frames.

The LEDs take over what they were sent when the pin stays low for 300 microseconds. `show`
does not wait for that itself: it notes the time when it has sent a frame, and the next call
holds off until `canShow`. The clock it goes by wraps, stands still while a frame is sent,
and loses what overflows twice in that time. Still no pause is too short, and the next frame
waits no longer than that clock makes it (`pauses_long_enough`). What a frame costs the clock is
counted as well (`frame_cost`). -/
namespace CofferLed.Core
open Library

/-! ### The clock since a moment -/

namespace Timer0

/-- What can have become of the timer since a moment when no overflow was waiting. -/
structure Since (s t : Timer0) : Prop where
  served : s.served ≤ t.served
  lost : s.lost ≤ t.lost
  inRound : t.served = s.served → t.tov0 = false → s.tcnt0.toNat ≤ t.tcnt0.toNat

theorem since_refl (s : Timer0) : Since s s := ⟨Nat.le_refl _, Nat.le_refl _, fun _ _ => Nat.le_refl _⟩

theorem Since.tick {s t : Timer0} (h : Since s t) : Since s t.tick := by
  refine ⟨h.served, ?_, fun round settled => ?_⟩
  · unfold Timer0.tick
    dsimp only
    split
    · exact Nat.le_succ_of_le h.lost
    · exact h.lost
  · simp only [Timer0.tick, Bool.or_eq_false_iff, beq_eq_false_iff_ne] at round settled ⊢
    have before := h.inRound round settled.1
    have inside := settled.2
    have next : (t.tcnt0 + 1).toNat = t.tcnt0.toNat + 1 := by bv_omega
    omega

theorem Since.ovfIsr {s t : Timer0} (h : Since s t) : Since s t.ovfIsr := by
  have served := h.served
  unfold Timer0.ovfIsr
  split
  · refine ⟨by dsimp only; omega, h.lost, fun round => ?_⟩
    dsimp only at round
    omega
  · exact h

theorem ovfIsr_settled (s : Timer0) : s.ovfIsr.tov0 = false := by
  unfold ovfIsr
  split
  · rfl
  · simp_all

/-- The time that `micros` shows does not go back. -/
theorem Since.seen {s t : Timer0} (h : Since s t) (settled : s.tov0 = false) :
    s.seen ≤ t.seen ∧ s.missed ≤ t.missed := by
  have served := h.served
  have byte := s.tcnt0.isLt
  have none : s.noticed.toNat = 0 ∧ s.unnoticed.toNat = 0 := by
    simp [noticed, unnoticed, settled]
  refine ⟨?_, ?_⟩
  · unfold Timer0.seen
    rw [none.1]
    rcases Nat.lt_or_eq_of_le served with more | same
    · omega
    · cases flag : t.tov0 with
      | false =>
        have := h.inRound same.symm flag
        omega
      | true =>
        by_cases last : t.tcnt0 = 255
        · have last : t.tcnt0.toNat = 255 := congrArg BitVec.toNat last
          omega
        · have up : t.noticed.toNat = 1 := by
            rw [noticed, flag, bne, beq_eq_false_iff_ne.mpr last]
            rfl
          omega
  · rw [missed, missed, none.2]
    exact Nat.le_trans h.lost (Nat.le_add_right _ _)

end Timer0

/-! ### `show` -/

/-- What `show` times itself by. -/
structure Driver where
  timer : Timer0
  endTime : BitVec 32
  /-- Interrupts are off while a frame goes out. -/
  sending : Bool
  /-- The timer when the last frame ended, and the pauses between frames so far, in ticks;
  the program knows neither. -/
  ended : Option Timer0
  pauses : List Nat

namespace Driver

def reset : Driver := ⟨Timer0.reset, 0, false, none, []⟩

def canShow (between : Bool) (d : Driver) : Bool := 300 ≤ d.timer.micros between - d.endTime

inductive Event where
  | tick
  /-- The overflow interrupt, where it is let through. -/
  | ovf
  /-- `show` evaluates `canShow`. -/
  | wait (between : Bool)
  /-- `show` has sent the frame. -/
  | sent (between : Bool)

def step : Event → Driver → Driver
  | .tick, d => {d with timer := d.timer.tick}
  | .ovf, d => if d.sending then d else {d with timer := d.timer.ovfIsr}
  | .wait between, d =>
    if d.sending || !d.canShow between then d
    else
      {d with
        sending := true
        pauses := d.pauses ++ (d.ended.map fun last => d.timer.ticks - last.ticks).toList}
  | .sent between, d =>
    if d.sending then
      -- After `interrupts()` comes the interrupt that has been waiting.
      let timer := d.timer.ovfIsr
      {d with timer, endTime := timer.micros between, sending := false, ended := some timer}
    else d

def after (d : Driver) (events : List Event) : Driver := run step d events

/-- The last frame ended then, and `endTime` is what `micros` showed. -/
structure Ended (last : Timer0) (d : Driver) : Prop where
  counts : last.Counts
  settled : last.tov0 = false
  endTime : d.endTime = BitVec.ofNat 32 last.seen
  since : Timer0.Since last d.timer

structure Timed (d : Driver) : Prop where
  counts : d.timer.Counts
  ended : ∀ last, d.ended = some last → Ended last d
  pauses : ∀ pause ∈ d.pauses, 75 ≤ pause

theorem canShow_iff {last : Timer0} {d : Driver} (h : Ended last d) (counts : d.timer.Counts)
    (between : Bool) :
    d.canShow between = true ↔
      300 ≤ (4 * (d.timer.ticks - last.ticks) - 1024 * (d.timer.missed - last.missed)) % 2 ^ 32 := by
  obtain ⟨grown, more⟩ := h.since.seen h.settled
  have now := Timer0.seen_missed counts
  have then' := Timer0.seen_missed h.counts
  have between_them : 4 * (d.timer.ticks - last.ticks) - 1024 * (d.timer.missed - last.missed) =
      d.timer.seen - last.seen := by
    omega
  obtain ⟨passed, sum⟩ := Nat.exists_eq_add_of_le grown
  have shown : d.timer.micros between - d.endTime = BitVec.ofNat 32 passed := by
    rw [Timer0.micros_eq counts, h.endTime, sum, BitVec.ofNat_add, BitVec.add_comm,
      BitVec.add_sub_cancel]
  rw [canShow, shown, between_them, sum, Nat.add_sub_cancel_left, decide_eq_true_iff, BitVec.le_def,
    BitVec.toNat_ofNat]
  rfl

theorem timed_step (e : Event) (d : Driver) (h : Timed d) : Timed (step e d) := by
  cases e with
  | tick =>
    refine ⟨Timer0.counts_tick h.counts, fun last hl => ?_, h.pauses⟩
    have ended := h.ended last hl
    exact ⟨ended.counts, ended.settled, ended.endTime, ended.since.tick⟩
  | ovf =>
    rw [step]
    split
    · exact h
    · refine ⟨Timer0.counts_ovfIsr h.counts, fun last hl => ?_, h.pauses⟩
      have ended := h.ended last hl
      exact ⟨ended.counts, ended.settled, ended.endTime, ended.since.ovfIsr⟩
  | wait between =>
    rw [step]
    split
    · exact h
    case isFalse goes =>
      refine ⟨h.counts, fun last hl => ?_, fun pause among => ?_⟩
      · have ended := h.ended last hl
        exact ⟨ended.counts, ended.settled, ended.endTime, ended.since⟩
      · rcases List.mem_append.mp among with before | now
        · exact h.pauses pause before
        · obtain ⟨last, hl, rfl⟩ : ∃ last, d.ended = some last ∧
              d.timer.ticks - last.ticks = pause := by
            simpa [Option.mem_toList] using now
          have ended := h.ended last hl
          have shown : d.canShow between = true := by
            rw [Bool.or_eq_true, not_or] at goes
            simpa using goes.2
          have long := (canShow_iff ended h.counts between).mp shown
          omega
  | sent between =>
    rw [step]
    split
    · have settled := Timer0.ovfIsr_settled d.timer
      have counts := Timer0.counts_ovfIsr h.counts
      refine ⟨counts, fun last hl => ?_, h.pauses⟩
      cases hl
      exact ⟨counts, settled, Timer0.micros_eq counts between, Timer0.since_refl _⟩
    · exact h

theorem timed_run (events : List Event) : Timed (reset.after events) := by
  refine run_invariant Timed timed_step reset ?_ events
  exact ⟨Timer0.counts_reset, nofun, nofun⟩

/-- **The pauses.** In any run of the timer, its interrupt and calls of `show`, 75 ticks, which
are 300 microseconds, pass at least between the end of a frame and the start of the next.
And `show` does wait for the clock only: it goes ahead when the clock, which wraps, shows 300
microseconds since the end, and that is the true time but for the overflows missed. -/
theorem pauses_long_enough (events : List Event) :
    let d := reset.after events
    (∀ pause ∈ d.pauses, 75 ≤ pause) ∧
      ∀ last, d.ended = some last → ∀ between,
        let shown := 4 * (d.timer.ticks - last.ticks) - 1024 * (d.timer.missed - last.missed)
        (d.canShow between = true ↔ 300 ≤ shown % 2 ^ 32) := by
  intro d
  have timed : Timed d := timed_run events
  exact ⟨timed.pauses, fun last hl between => canShow_iff (timed.ended last hl) timed.counts between⟩

end Driver

/-! ### What a frame costs -/

namespace Timer0

/-- How often the timer has wrapped since a moment. -/
def wraps (s t : Timer0) : Nat := (s.tcnt0.toNat + (t.ticks - s.ticks)) / 256

/-- What has become of the timer when nobody has served its interrupt. -/
structure Alone (s t : Timer0) : Prop where
  ticks : s.ticks ≤ t.ticks
  count : t.tcnt0.toNat = (s.tcnt0.toNat + (t.ticks - s.ticks)) % 256
  flag : t.tov0 = (s.tov0 || decide (0 < wraps s t))
  lost : t.lost = s.lost + (wraps s t - if s.tov0 then 0 else 1)
  served : t.served = s.served

theorem alone_refl (s : Timer0) : Alone s s := by
  have byte := s.tcnt0.isLt
  have none : wraps s s = 0 := by
    unfold wraps
    omega
  refine ⟨Nat.le_refl _, ?_, ?_, ?_, rfl⟩
  · rw [Nat.sub_self, Nat.add_zero, Nat.mod_eq_of_lt byte]
  · simp [none]
  · rw [none, Nat.zero_sub]
    rfl

theorem ovfIsr_fields (s : Timer0) :
    s.ovfIsr.ticks = s.ticks ∧ s.ovfIsr.lost = s.lost ∧ s.ovfIsr.served = s.served + s.pending := by
  unfold ovfIsr pending
  split <;> exact ⟨rfl, rfl, rfl⟩

/-- One more tick wraps the timer if it has reached its end. -/
theorem Alone.tick {s t : Timer0} (h : Alone s t) : Alone s t.tick := by
  have since := h.ticks
  have count := h.count
  have flag := h.flag
  have lost := h.lost
  have later : t.tick.ticks - s.ticks = t.ticks - s.ticks + 1 := by
    show t.ticks + 1 - s.ticks = _
    omega
  by_cases last : t.tcnt0 = 255
  · have more : wraps s t.tick = wraps s t + 1 := by
      rw [last, show (255 : BitVec 8).toNat = 255 from rfl] at count
      unfold wraps
      rw [later]
      omega
    refine ⟨Nat.le_succ_of_le since, ?_, ?_, ?_, h.served⟩
    · rw [later, Timer0.tick, last]
      rw [last, show (255 : BitVec 8).toNat = 255 from rfl] at count
      show 0 = _
      omega
    · rw [more]
      simp [Timer0.tick, last]
    · rw [more]
      simp only [Timer0.tick, last, beq_self_eq_true, Bool.and_true, flag, lost]
      cases s.tov0 <;> by_cases some : 0 < wraps s t <;> simp [some] <;> omega
  · have inside : (t.tcnt0 == 255) = false := beq_eq_false_iff_ne.mpr last
    have next : (t.tcnt0 + 1).toNat = t.tcnt0.toNat + 1 := by bv_omega
    have byte := (t.tcnt0 + 1).isLt
    have same : wraps s t.tick = wraps s t := by
      unfold wraps
      rw [later]
      omega
    refine ⟨Nat.le_succ_of_le since, ?_, ?_, ?_, h.served⟩
    · rw [later]
      show (t.tcnt0 + 1).toNat = _
      omega
    · rw [same, ← flag]
      simp only [Timer0.tick, inside, Bool.or_false]
    · rw [same, ← lost]
      simp only [Timer0.tick, inside, Bool.and_false, Bool.false_eq_true, if_false]

end Timer0

namespace Driver

def IsSent : Event → Prop
  | .sent _ => True
  | _ => False

/-- While a frame goes out, the timer counts and nothing else happens. -/
theorem sending_run (frame : List Event) (whole : ∀ e ∈ frame, ¬ IsSent e) {s : Timer0} {d : Driver}
    (sending : d.sending = true) (alone : Timer0.Alone s d.timer) :
    (d.after frame).sending = true ∧ Timer0.Alone s (d.after frame).timer := by
  induction frame generalizing d with
  | nil => exact ⟨sending, alone⟩
  | cons e rest ih =>
    have later := fun e' among => whole e' (List.mem_cons_of_mem _ among)
    cases e with
    | tick => exact ih later sending alone.tick
    | ovf =>
      have still : step .ovf d = d := if_pos sending
      rw [after, run, still]
      exact ih later sending alone
    | wait between =>
      have still : step (.wait between) d = d := if_pos (by rw [sending]; rfl)
      rw [after, run, still]
      exact ih later sending alone
    | sent between => exact absurd trivial (whole _ List.mem_cons_self)

/-- **What a frame costs.** While a frame goes out the timer wraps on, but of all its wraps just
one is made up for afterwards: `micros` is late by 1024 microseconds for each of the others, or
for all of them if one was waiting when the frame began, and `millis` moves on by two at most. A
frame of less than one wrap costs nothing then. -/
theorem frame_cost (before frame : List Event) (whole : ∀ e ∈ frame, ¬ IsSent e) (between : Bool)
    (sending : (reset.after before).sending = true) :
    let d := reset.after before
    let e := step (.sent between) (d.after frame)
    let wraps := Timer0.wraps d.timer e.timer
    let lost := wraps - if d.timer.tov0 then 0 else 1
    e.sending = false ∧ e.timer.lost = d.timer.lost + lost ∧
      e.timer.seen + 1024 * lost =
        d.timer.seen + 1024 * d.timer.unnoticed.toNat + 4 * (e.timer.ticks - d.timer.ticks) ∧
      ∃ ms ≤ 2, e.timer.millis = d.timer.millis + BitVec.ofNat 32 ms := by
  intro d e
  obtain ⟨goes, alone⟩ := sending_run frame whole sending (Timer0.alone_refl d.timer)
  have timed : Timed d := timed_run before
  have timed' : Timed e := timed_step _ _ (run_invariant Timed timed_step d timed frame)
  have ended : e.timer = (d.after frame).timer.ovfIsr := congrArg timer (if_pos goes)
  obtain ⟨ticks, lost, served⟩ := Timer0.ovfIsr_fields (d.after frame).timer
  rw [← ended] at ticks lost served
  have wraps : Timer0.wraps d.timer e.timer = Timer0.wraps d.timer (d.after frame).timer := by
    rw [Timer0.wraps, ticks]
    rfl
  have more : e.timer.lost = d.timer.lost +
      (Timer0.wraps d.timer e.timer - if d.timer.tov0 then 0 else 1) := by
    rw [lost, alone.lost, wraps]
  refine ⟨congrArg Driver.sending (if_pos goes), more, ?_, ?_⟩
  · have since : d.timer.ticks ≤ (d.after frame).timer.ticks := alone.ticks
    have early := Timer0.seen_missed timed.counts
    have late := Timer0.seen_missed timed'.counts
    have settled : e.timer.unnoticed = false := by
      rw [ended, Timer0.unnoticed, Timer0.ovfIsr_settled, Bool.false_and]
    rw [Timer0.missed] at early
    rw [Timer0.missed, settled, Bool.toNat_false, Nat.add_zero, more] at late
    omega
  · have one : e.timer.served = d.timer.served + (d.after frame).timer.pending := by
      rw [served, alone.served]
    have pending : (d.after frame).timer.pending ≤ 1 := by
      unfold Timer0.pending
      split <;> decide
    refine ⟨128 * e.timer.served / 125 - 128 * d.timer.served / 125, by omega, ?_⟩
    rw [Timer0.millis, Timer0.millis, timed.counts.millis, timed'.counts.millis, ← BitVec.ofNat_add]
    congr 1
    omega

/-- The first frame, of 600 ticks. -/
theorem frame_cost_first :
    let d := reset.after (List.replicate 75 .tick ++ [.wait false])
    let e := step (.sent false) (d.after (List.replicate 600 .tick))
    e.timer.lost = d.timer.lost +
      (Timer0.wraps d.timer e.timer - if d.timer.tov0 then 0 else 1) := by
  have sending : (reset.after (List.replicate 75 .tick ++ [.wait false])).sending = true := by
    decide +kernel
  generalize List.replicate 75 Event.tick ++ [Event.wait false] = before at sending ⊢
  have whole : ∀ e ∈ List.replicate 600 Event.tick, ¬ IsSent e := fun e among => by
    rw [List.eq_of_mem_replicate among]
    exact id
  generalize List.replicate 600 Event.tick = frame at whole ⊢
  exact (frame_cost before frame whole false sending).2.1

end Driver

end CofferLed.Core
