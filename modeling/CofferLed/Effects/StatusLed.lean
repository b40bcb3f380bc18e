import CofferLed.Library.Counter
import CofferLed.Sketch.Loop

/-! The status LED over whole runs, on a clock that wraps.

`millis()` shows a true time modulo `2 ^ 32`, so the time since the last message that the
flash check computes is right only within a round of it. Still the LED is right for ever:
once it has been put out only a message lights it again, and until then every flash check
has come less than a round after the message (`Shows`), as long as the clock is read often
enough. -/
namespace CofferLed.Effects
open Library CofferLed.Core Sketch

/-- An event, with the true times at which an iteration that it ends reads the clock. -/
inductive TimedEvent where
  | rx (c : BitVec 8)
  | poll (received check : Nat)

def TimedEvent.event : TimedEvent → Event
  | .rx c => .rx c
  | .poll received check => .poll ⟨Counter.shown 32 received, Counter.shown 32 check⟩

/-- The true times of an iteration: of the message it delivers, if any, and of its flash
check. -/
structure FlashCheck where
  delivered : Option Nat
  check : Nat
  deriving DecidableEq

def flashChecks : TimedEvent → Receiver → List FlashCheck
  | .rx _, _ => []
  | .poll received check, r =>
    (r.turn (TimedEvent.poll received check).event).map fun t =>
      ⟨if t.received then some received else none, check⟩

/-- The flash checks of a run. -/
def history {N : Nat} (f : Firmware N) (events : List TimedEvent) : List FlashCheck :=
  trace (fun e f => (Firmware.step e.event f).val) (fun e f => flashChecks e f.receiver) f events

/-- The clock readings of some iterations, in order. -/
def readings (checks : List FlashCheck) : List Nat :=
  checks.flatMap fun c => c.delivered.toList ++ [c.check]

def lastDelivery (checks : List FlashCheck) : Option Nat :=
  (checks.filterMap FlashCheck.delivered).getLast?

def lastCheck (checks : List FlashCheck) : Option Nat := checks.getLast?.map FlashCheck.check

/-- The clock is read often enough for the flash of the LED. -/
def InTime (checks : List FlashCheck) : Prop := Counter.Ticking (2 ^ 32 - 101) (readings checks)

instance (checks : List FlashCheck) : Decidable (InTime checks) := by unfold InTime; infer_instance

/-! ### The history -/

section
variable (past : List FlashCheck) (c : FlashCheck)

theorem lastDelivery_append :
    lastDelivery (past ++ [c]) = (c.delivered <|> lastDelivery past) := by
  cases h : c.delivered <;> simp [lastDelivery, List.filterMap_append, h]

theorem lastCheck_append : lastCheck (past ++ [c]) = some c.check := by
  simp [lastCheck]

theorem readings_append : readings (past ++ [c]) = readings past ++ (c.delivered.toList ++ [c.check]) := by
  simp [readings]

theorem readings_last : (readings past).getLast? = lastCheck past := by
  induction past using List.reverseRecOn with
  | nil => rfl
  | append_singleton past c _ => simp [readings_append, lastCheck_append]

/-- A message that was delivered was followed by a flash check. -/
theorem lastCheck_of_delivery {t : Nat} (h : lastDelivery past = some t) :
    ∃ s, lastCheck past = some s := by
  cases past using List.reverseRecOn with
  | nil => cases h
  | append_singleton past c => exact ⟨_, lastCheck_append past c⟩

end

/-! ### One iteration -/

/-- The LED after some flash checks, the last of them at most 100 ms after the last message
as long as it is lit; `start` is what the next check will compare with. -/
structure Shows {N : Nat} (checks : List FlashCheck) (f : Firmware N) : Prop where
  ordered : ∀ t c, lastDelivery checks = some t → lastCheck checks = some c → t ≤ c
  led : f.statusLed = true ↔
    ∃ t c, lastDelivery checks = some t ∧ lastCheck checks = some c ∧ c ≤ t + 100
  start : f.statusLed = true →
    ∀ t, lastDelivery checks = some t → f.statusLedFlashStart = Counter.shown 32 t

/-- Within a round the flash check is right. -/
theorem late_iff {s t : Nat} (le : s ≤ t) (soon : t < s + 2 ^ 32) :
    Counter.shown 32 t - Counter.shown 32 s > statusLedFlashDelay ↔ ¬ t ≤ s + 100 := by
  have delay : statusLedFlashDelay.toNat = 100 := rfl
  rw [gt_iff_lt, BitVec.lt_def, Counter.elapsed le soon, delay]
  omega

variable {N : Nat}

/-- An iteration with a message starts the flash anew. -/
theorem shows_message (past : List FlashCheck) (f : Firmware N) (received check : Nat)
    (in_time : InTime (past ++ [⟨some received, check⟩])) :
    Shows (past ++ [⟨some received, check⟩])
      (f.loop true ⟨Counter.shown 32 received, Counter.shown 32 check⟩).val := by
  obtain ⟨led, start⟩ := Firmware.loop_led true
    ⟨Counter.shown 32 received, Counter.shown 32 check⟩ f
  rw [InTime, readings_append] at in_time
  obtain ⟨_, here, _⟩ := in_time.append
  obtain ⟨le, soon⟩ : received ≤ check ∧ check ≤ received + (2 ^ 32 - 101) := by
    simpa [Counter.Ticking] using here
  have late := late_iff le (by omega)
  have last : lastDelivery (past ++ [⟨some received, check⟩]) = some received :=
    lastDelivery_append past _
  have now : lastCheck (past ++ [⟨some received, check⟩]) = some check := lastCheck_append past _
  refine ⟨?_, ?_, ?_⟩
  · intro t c ht hc
    rw [last, Option.some.injEq] at ht
    rw [now, Option.some.injEq] at hc
    omega
  · rw [led, Firmware.lit, Firmware.flashStart, if_pos rfl, last, now]
    simp [late]
  · intro _ t ht
    rw [last, Option.some.injEq] at ht
    rw [start, ← ht]
    rfl

/-- The flash check after the last message, and the one after that. -/
theorem Shows.since {past : List FlashCheck} {f : Firmware N} (h : Shows past f) {check : Nat}
    (in_time : InTime (past ++ [⟨none, check⟩])) {t : Nat} (ht : lastDelivery past = some t) :
    ∃ s, lastCheck past = some s ∧ t ≤ s ∧ s ≤ check ∧ check ≤ s + (2 ^ 32 - 101) := by
  rw [InTime, readings_append] at in_time
  obtain ⟨_, _, join⟩ := in_time.append
  rw [readings_last] at join
  obtain ⟨s, hs⟩ := lastCheck_of_delivery past ht
  exact ⟨s, hs, h.ordered t s ht hs, join s hs check rfl⟩

/-- An iteration without one puts the LED out when it is time, and never lights it. -/
theorem Shows.silence {past : List FlashCheck} {f : Firmware N} (h : Shows past f)
    (received : BitVec 32) (check : Nat) (in_time : InTime (past ++ [⟨none, check⟩])) :
    Shows (past ++ [⟨none, check⟩]) (f.loop false ⟨received, Counter.shown 32 check⟩).val := by
  obtain ⟨led, start⟩ := Firmware.loop_led false ⟨received, Counter.shown 32 check⟩ f
  have last : lastDelivery (past ++ [⟨none, check⟩]) = lastDelivery past := lastDelivery_append past _
  have now : lastCheck (past ++ [⟨none, check⟩]) = some check := lastCheck_append past _
  refine ⟨?_, ?_, ?_⟩
  · intro t c ht hc
    rw [last] at ht
    rw [now, Option.some.injEq] at hc
    obtain ⟨s, _, order, later, _⟩ := h.since in_time ht
    omega
  · rw [led, Firmware.lit, Firmware.flashStart, last, now]
    cases lit : f.statusLed with
    | false =>
      have out := h.led
      rw [lit] at out
      refine ⟨?_, ?_⟩
      · intro lit
        cases lit
      · rintro ⟨t, c, ht, hc, le⟩
        obtain ⟨s, hs, _, later, _⟩ := h.since in_time ht
        rw [Option.some.injEq] at hc
        exact out.mpr ⟨t, s, ht, hs, by omega⟩
    | true =>
      obtain ⟨t, s, ht, hs, fresh⟩ := h.led.mp lit
      obtain ⟨s', hs', order, later, soon⟩ := h.since in_time ht
      rw [hs, Option.some.injEq] at hs'
      subst hs'
      have late := late_iff (order.trans later) (Counter.in_round fresh soon (by decide))
      rw [if_neg Bool.false_ne_true, h.start lit t ht]
      simp [late, ht]
  · intro lit t ht
    rw [last] at ht
    have before : f.statusLed = true := by
      rw [led, Firmware.lit, Bool.false_or, Bool.and_eq_true] at lit
      exact lit.1
    rw [start]
    exact h.start before t ht

/-! ### Runs -/

theorem InTime.append {past later : List FlashCheck} (h : InTime (past ++ later)) : InTime past := by
  rw [InTime, readings, List.flatMap_append] at h
  exact h.append.1

theorem after_timed (f : Firmware N) (events : List TimedEvent) :
    f.after (events.map TimedEvent.event) =
      run (fun e f => (Firmware.step e.event f).val) f events := run_map _ _ f events

/-- A relation between the flash checks so far and the firmware holds of every run if it
says nothing of the receiver and every iteration keeps it. -/
theorem checks_history (Rel : List FlashCheck → Firmware N → Prop)
    (quiet : ∀ past f receiver, Rel past f → Rel past {f with receiver := receiver})
    (iteration : ∀ past f received check message, Rel past f →
      Rel (past ++ [⟨if message then some received else none, check⟩])
        (f.loop message ⟨Counter.shown 32 received, Counter.shown 32 check⟩).val)
    (f : Firmware N) (start : Rel [] f) (events : List TimedEvent) :
    Rel (history f events) (f.after (events.map TimedEvent.event)) := by
  rw [after_timed]
  refine run_history Rel ?_ f start events
  intro past e f h
  cases e with
  | rx c =>
    rw [flashChecks, List.append_nil]
    exact quiet past f _ h
  | poll received check =>
    rw [flashChecks, TimedEvent.event]
    by_cases hc : f.receiver.Condition
    · rw [Firmware.step_body _ hc, Receiver.turn_body _ hc, List.map_nil, List.append_nil]
      exact quiet past f _ h
    · rw [Firmware.step_finish _ hc, Receiver.turn_finish _ hc]
      exact iteration past _ received check _ (quiet past f _ h)

theorem history_receiver (f : Firmware N) (events : List TimedEvent) :
    history f events =
      trace (fun e r => (Receiver.step e.event r).val) flashChecks f.receiver events :=
  trace_project (fun f : Firmware N => f.receiver) (fun e f => Firmware.step_receiver e.event f)
    (fun _ _ => rfl) f events

theorem run_shows (f : Firmware N) (off : f.statusLed = false) (events : List TimedEvent)
    (in_time : InTime (history f events)) :
    Shows (history f events) (f.after (events.map TimedEvent.event)) := by
  refine checks_history (fun past f => InTime past → Shows past f) ?_ ?_ f ?_ events in_time
  · intro past f receiver h in_time
    obtain ⟨ordered, led, start⟩ := h in_time
    exact ⟨ordered, led, start⟩
  · intro past f received check message h in_time
    cases message with
    | true => exact shows_message past f received check in_time
    | false => exact (h in_time.append).silence _ check in_time
  · intro _
    refine ⟨nofun, ?_, fun lit => ?_⟩
    · rw [off]
      exact ⟨nofun, fun ⟨_, _, none_yet, _⟩ => nomatch none_yet⟩
    · rw [off] at lit
      cases lit

/-- Without a message the LED stays out, however long. -/
theorem run_dark (f : Firmware N) (off : f.statusLed = false) (events : List TimedEvent)
    (silent : ∀ c ∈ history f events, c.delivered = none) :
    (f.after (events.map TimedEvent.event)).statusLed = false := by
  refine checks_history (fun past (f : Firmware N) =>
    (∀ c ∈ past, c.delivered = none) → f.statusLed = false) ?_ ?_ f (fun _ => off) events silent
  · intro past f receiver h
    exact h
  · intro past f received check message h silent
    have before := h fun c hc => silent c (List.mem_append_left _ hc)
    have here := silent _ (List.mem_append_right _ (List.mem_singleton_self _))
    cases message with
    | true => cases here
    | false => rw [(Firmware.loop_led false _ f).1, Firmware.lit, before, Bool.or_self, Bool.false_and]

/-- **The status LED.** In a run that starts with the LED out and reads the clock often
enough, after each flash check it is lit exactly if a message has been delivered and the
check comes at most 100 ms of true time after the last one. Without a message it never
comes back. -/
theorem status_led (f : Firmware N) (off : f.statusLed = false) (events : List TimedEvent)
    (in_time : InTime (history f events)) :
    (∀ past c, history f events = past ++ [c] →
        ((f.after (events.map TimedEvent.event)).statusLed = true ↔
          ∃ t, lastDelivery (past ++ [c]) = some t ∧ t ≤ c.check ∧ c.check - t ≤ 100)) ∧
      ∀ before rest, events = before ++ rest →
        let g := f.after (before.map TimedEvent.event)
        g.statusLed = false → (∀ c ∈ history g rest, c.delivered = none) →
          (g.after (rest.map TimedEvent.event)).statusLed = false := by
  have shows_all := run_shows f off events in_time
  refine ⟨fun past c last => ?_, fun before rest _ out silent => run_dark _ out rest silent⟩
  rw [last] at shows_all
  have now := lastCheck_append past c
  rw [shows_all.led]
  refine ⟨?_, ?_⟩
  · rintro ⟨t, s, ht, hs, fresh⟩
    have order := shows_all.ordered t s ht hs
    rw [now, Option.some.injEq] at hs
    exact ⟨t, ht, by omega, by omega⟩
  · rintro ⟨t, ht, order, fresh⟩
    exact ⟨t, c.check, ht, now, by omega⟩

/-- A message that is delivered just before the clock wraps, and the next two flash checks. -/
theorem status_led_wrap :
    let f := Firmware.powerUp 98 0
    let message := (0xF1 :: List.replicate 16 1).map TimedEvent.rx ++
      List.replicate 17 (TimedEvent.poll 0 0) ++ [.poll (2 ^ 32 - 20) (2 ^ 32 + 30)]
    (f.after (message.map TimedEvent.event)).statusLed = true ∧
      (f.after ((message ++ [.poll 0 (2 ^ 32 + 100)]).map TimedEvent.event)).statusLed = false := by
  intro f message
  have first : history f message = [] ++ [⟨some (2 ^ 32 - 20), 2 ^ 32 + 30⟩] := by
    rw [history_receiver]
    decide +kernel
  have both : history f (message ++ [.poll 0 (2 ^ 32 + 100)]) =
      [⟨some (2 ^ 32 - 20), 2 ^ 32 + 30⟩] ++ [⟨none, 2 ^ 32 + 100⟩] := by
    rw [history_receiver]
    decide +kernel
  have lit := (status_led f rfl message (by rw [first]; decide)).1 [] _ first
  have out := (status_led f rfl _ (by rw [both]; decide)).1 _ _ both
  refine ⟨lit.mpr ⟨2 ^ 32 - 20, rfl, by decide, by decide⟩, ?_⟩
  rw [← Bool.not_eq_true, out]
  rintro ⟨t, last, _, fresh⟩
  obtain rfl : 2 ^ 32 - 20 = t := by simpa [lastDelivery] using last
  revert fresh
  decide

end CofferLed.Effects
