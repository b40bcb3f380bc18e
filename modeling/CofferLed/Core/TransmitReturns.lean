import CofferLed.Core.TransmitOrder
import CofferLed.Library.Fair

/-! Every call of `write` and `flush` comes back.

In each state there is one action of the program, the interrupt or the hardware that brings the
call nearer to its end (`helps`), and none that takes it further away (`moves_step`). So a call
that every one of them gets to act on, again and again, ends (`call_returns`). -/
namespace CofferLed.Core
open Library

namespace Transmitter
variable {t : Transmitter}

/-- The steps that the bytes on their way still have to take. -/
def load (t : Transmitter) : Nat :=
  3 * t.tx.available + 2 * t.udr.toList.length + t.shifter.toList.length

/-- What moves the bytes on. -/
def drains (t : Transmitter) : Event :=
  if t.shifter ≠ none then .shifted
  else if t.udr ≠ none then .take
  else if t.interrupts then .irq
  else .proceed

/-- What gets `flush` on. -/
def flushes (t : Transmitter) : Event := if t.load = 0 then .proceed else t.drains

/-- The program gets on by itself, unless it waits for room or for the last byte. -/
def helps (t : Transmitter) : Event :=
  match t.place with
  | .full _ i => if i = t.tx.tail then t.drains else .proceed
  | .queued | .complete | .poll => t.flushes
  | _ => .proceed

/-- The steps the program itself has to take before it waits, or before it is through. -/
def ahead (t : Transmitter) : Nat :=
  match t.place with
  | .idle => 0
  | .write _ => 7
  | .empty _ => 6
  | .ready _ => 5
  | .full _ i => if i = t.tx.tail then 4 else 3
  | .store _ _ => 2
  | .publish _ _ | .direct _ => 1
  | .flush => 4
  | .queued => if t.flushes = .proceed then 2 else 3
  | .complete => if t.flushes = .proceed then 1 else 3
  | .poll => if t.flushes = .proceed ∧ t.load ≠ 0 then 1 else 3

def left (t : Transmitter) : Nat := 8 * t.load + t.ahead

theorem ahead_lt (t : Transmitter) : t.ahead < 8 := by
  unfold ahead
  split <;> (try split) <;> decide

/-- A byte moving on makes up for whatever the program has to do again. -/
theorem left_of_load {t' : Transmitter} (h : t'.load < t.load) : t'.left < t.left := by
  have before := t.ahead_lt
  have after := t'.ahead_lt
  unfold left
  omega

theorem left_lt {t' : Transmitter} (load : t'.load = t.load) (h : t'.ahead < t.ahead) :
    t'.left < t.left := by
  unfold left
  omega

theorem left_le (t : Transmitter) : t.left ≤ 1543 := by
  have room : t.tx.available < 64 := t.tx.available_lt
  have ahead := t.ahead_lt
  have one : ∀ register : Option (BitVec 8), register.toList.length ≤ 1 := fun register => by
    cases register <;> simp
  have data := one t.udr
  have shift := one t.shifter
  unfold left load
  omega

theorem load_txUdrEmptyIrq (queued : t.tx.head ≠ t.tx.tail) (free : t.udr = none) :
    t.txUdrEmptyIrq.load < t.load := by
  have fewer := congrArg List.length (Ring.contents_cons t.tx queued)
  rw [List.length_cons, Ring.contents_length, Ring.contents_length] at fewer
  rw [txUdrEmptyIrq_eq free, load, load, free]
  simp only [Option.toList_some, Option.toList_none, List.length_cons, List.length_nil]
  omega

theorem drains_cases (t : Transmitter) :
    (t.shifter ≠ none ∧ t.drains = .shifted) ∨
      (t.shifter = none ∧ t.udr ≠ none ∧ t.drains = .take) ∨
      (t.shifter = none ∧ t.udr = none ∧ t.interrupts = true ∧ t.drains = .irq) ∨
      (t.shifter = none ∧ t.udr = none ∧ t.interrupts = false ∧ t.drains = .proceed) := by
  unfold drains
  split
  case isTrue busy => exact .inl ⟨busy, rfl⟩
  case isFalse free =>
    have free : t.shifter = none := not_not.mp free
    split
    case isTrue waiting => exact .inr (.inl ⟨free, waiting, rfl⟩)
    case isFalse taken =>
      have taken : t.udr = none := not_not.mp taken
      split
      case isTrue on => exact .inr (.inr (.inl ⟨free, taken, on, rfl⟩))
      case isFalse off =>
        exact .inr (.inr (.inr ⟨free, taken, Bool.not_eq_true _ ▸ off, rfl⟩))

theorem drains_proceed (h : t.drains = .proceed) :
    t.shifter = none ∧ t.udr = none ∧ t.interrupts = false := by
  rcases t.drains_cases with ⟨-, other⟩ | ⟨-, -, other⟩ | ⟨-, -, -, other⟩ | ⟨shifter, udr, off, -⟩
  · cases h.symm.trans other
  · cases h.symm.trans other
  · cases h.symm.trans other
  · exact ⟨shifter, udr, off⟩

theorem drained_of_load (empty : t.load = 0) : t.shifter = none ∧ t.udr = none ∧ t.tx.head = t.tx.tail := by
  unfold load at empty
  refine ⟨?_, ?_, (Ring.available_eq_zero _).mp (by omega)⟩
  · exact Option.toList_eq_nil_iff.mp (List.length_eq_zero_iff.mp (by omega))
  · exact Option.toList_eq_nil_iff.mp (List.length_eq_zero_iff.mp (by omega))

/-- What is on its way with both registers empty is in the buffer. -/
theorem queued_of_load (busy : t.load ≠ 0) (shifter : t.shifter = none) (udr : t.udr = none) :
    t.tx.head ≠ t.tx.tail := fun emptied => busy (by
  rw [load, shifter, udr, (Ring.available_eq_zero _).mpr emptied]
  rfl)

theorem load_ne_zero (queued : t.tx.head ≠ t.tx.tail) : t.load ≠ 0 := fun empty =>
  queued (drained_of_load empty).2.2

/-- With nothing on its way any more, the transmit complete flag is set. -/
theorem Sound.completed (h : Sound t) (waits : t.place = .complete) (empty : t.load = 0) :
    t.txc0 = true := by
  obtain ⟨shifter, udr, emptied⟩ := drained_of_load empty
  by_contra clear
  rw [Bool.not_eq_true] at clear
  have order := h.order
  rw [shifter, udr, h.fresh clear shifter udr, waits,
    Ring.contents_drained _ emptied] at order
  exact h.written (h.begun (by rw [waits]; rfl)) order.symm

/-- With the program waiting for room, there is something in the buffer. -/
theorem Sound.full_queued (h : Sound t) {c : BitVec 8} {i : Fin serialTxBufferSize}
    (at_ : t.place = .full c i) (full : i = t.tx.tail) : t.tx.head ≠ t.tx.tail := by
  have knows := h.knows
  rw [at_] at knows
  rw [← full, knows]
  exact Ring.ne_after t.tx.head (by decide)

/-- What a part of `write` or `flush` leads to. -/
def Moves (t : Transmitter) (e : Event) : Prop :=
  (step e t).place = .idle ∨ (step e t).left < t.left ∨
    (e ≠ t.helps ∧ (step e t).left = t.left ∧ (step e t).helps = t.helps)

theorem moves_full (h : Sound t) {c : BitVec 8} {i : Fin serialTxBufferSize}
    (at_ : t.place = .full c i) : Moves t .proceed := by
  have next : step .proceed t = t.proceed := rfl
  rw [proceed, at_] at next
  dsimp only at next
  rw [Moves, next]
  split
  case isTrue full =>
    split
    case isTrue poll =>
      have free : t.udr = none := free_of_udre0 (Bool.and_eq_true_iff.mp poll).2
      exact .inr (.inl (left_of_load (load_txUdrEmptyIrq (h.full_queued at_ full) free)))
    case isFalse busy =>
      refine .inr (.inr ⟨fun same => busy ?_, rfl, rfl⟩)
      rw [helps, at_] at same
      dsimp only at same
      rw [if_pos full] at same
      obtain ⟨-, free, off⟩ := drains_proceed same.symm
      rw [off, udre0, free]
      rfl
  case isFalse room =>
    refine .inr (.inl (left_lt rfl ?_))
    rw [ahead, ahead, at_]
    dsimp only
    rw [if_neg room]
    decide

theorem moves_queued (h : Sound t) (at_ : t.place = .queued) : Moves t .proceed := by
  have next : step .proceed t = t.proceed := rfl
  rw [proceed, at_] at next
  have now : t.ahead = if t.flushes = .proceed then 2 else 3 := by rw [ahead, at_]
  have here : t.helps = t.flushes := by rw [helps, at_]
  rw [Moves, next, here]
  dsimp only
  by_cases own : t.flushes = .proceed
  · rw [if_pos own] at now
    refine .inr (.inl (left_lt rfl ?_))
    rw [now]
    split
    case isTrue on =>
      show (if t.flushes = .proceed ∧ t.load ≠ 0 then 1 else 3) < 2
      rw [if_pos ⟨own, load_ne_zero (h.drie.mp on)⟩]
      decide
    case isFalse off =>
      show (if t.flushes = .proceed then 1 else 3) < 2
      rw [if_pos own]
      decide
  · rw [if_neg own] at now
    refine .inr (.inr ⟨Ne.symm own, ?_, ?_⟩)
    · unfold left
      rw [now]
      congr 1
      split
      · exact if_neg fun both => own both.1
      · exact if_neg own
    · split <;> rfl

theorem moves_complete (h : Sound t) (at_ : t.place = .complete) : Moves t .proceed := by
  have knows := h.knows
  rw [at_] at knows
  have next : step .proceed t = t.proceed := rfl
  rw [proceed, at_] at next
  have now : t.ahead = if t.flushes = .proceed then 1 else 3 := by rw [ahead, at_]
  have here : t.helps = t.flushes := by rw [helps, at_]
  rw [Moves, next, here]
  dsimp only
  by_cases set : t.txc0 = true
  · rw [if_pos set]
    exact .inl rfl
  · have busy : t.load ≠ 0 := fun empty => set (h.completed at_ empty)
    have waits : t.flushes ≠ .proceed := fun own => by
      rw [flushes, if_neg busy] at own
      obtain ⟨shifter, udr, -⟩ := drains_proceed own
      exact queued_of_load busy shifter udr knows
    rw [if_neg waits] at now
    rw [if_neg set]
    refine .inr (.inr ⟨Ne.symm waits, ?_, rfl⟩)
    unfold left
    rw [now]
    congr 1
    exact if_neg fun both => waits both.1

theorem moves_poll (h : Sound t) (at_ : t.place = .poll) : Moves t .proceed := by
  have next : step .proceed t = t.proceed := rfl
  rw [proceed, at_] at next
  have now : t.ahead = if t.flushes = .proceed ∧ t.load ≠ 0 then 1 else 3 := by rw [ahead, at_]
  have here : t.helps = t.flushes := by rw [helps, at_]
  rw [Moves, next, here]
  dsimp only
  split
  case isTrue polls =>
    rw [Bool.and_eq_true, Bool.and_eq_true] at polls
    refine .inr (.inl (left_of_load ?_))
    exact load_txUdrEmptyIrq (t := {t with place := .queued}) (h.drie.mp polls.1.2)
      (free_of_udre0 polls.2)
  case isFalse waits =>
    by_cases own : t.flushes = .proceed
    · have empty : t.load = 0 := by
        by_contra busy
        rw [flushes, if_neg busy] at own
        obtain ⟨shifter, udr, off⟩ := drains_proceed own
        have queued := queued_of_load busy shifter udr
        apply waits
        rw [off, h.drie.mpr queued, udre0, udr]
        rfl
      rw [if_neg fun both => both.2 empty] at now
      refine .inr (.inl (left_lt rfl ?_))
      show (if t.flushes = .proceed then 2 else 3) < _
      rw [if_pos own, now]
      decide
    · rw [if_neg fun both => own both.1] at now
      refine .inr (.inr ⟨Ne.symm own, ?_, rfl⟩)
      unfold left
      rw [now]
      congr 1
      exact if_neg own

theorem moves_proceed (h : Sound t) (busy : t.place ≠ .idle) : Moves t .proceed := by
  have next : step .proceed t = t.proceed := rfl
  cases at_ : t.place with
  | idle => exact absurd at_ busy
  | full c i => exact moves_full h at_
  | queued => exact moves_queued h at_
  | complete => exact moves_complete h at_
  | poll => exact moves_poll h at_
  | direct c =>
    rw [proceed, at_] at next
    exact .inl (congrArg place next)
  | publish c i =>
    rw [proceed, at_] at next
    exact .inl (congrArg place next)
  | flush =>
    have now : t.ahead = 4 := by rw [ahead, at_]
    rw [proceed, at_] at next
    rw [Moves, next]
    dsimp only
    split
    · refine .inr (.inl (left_lt rfl ?_))
      show (if t.flushes = .proceed then 2 else 3) < _
      rw [now]
      split <;> decide
    · exact .inl rfl
  | write c =>
    have now : t.ahead = 7 := by rw [ahead, at_]
    rw [proceed, at_] at next
    rw [Moves, next]
    refine .inr (.inl (left_lt rfl ?_))
    rw [now]
    exact Nat.lt_succ_self 6
  | empty c =>
    have now : t.ahead = 6 := by rw [ahead, at_]
    rw [proceed, at_] at next
    rw [Moves, next]
    refine .inr (.inl (left_lt rfl ?_))
    rw [now]
    dsimp only
    split
    · exact Nat.lt_succ_self 5
    · show (if Ring.after t.tx.head = t.tx.tail then 4 else 3) < 6
      split <;> decide
  | ready c =>
    have now : t.ahead = 5 := by rw [ahead, at_]
    rw [proceed, at_] at next
    rw [Moves, next]
    refine .inr (.inl (left_lt rfl ?_))
    rw [now]
    dsimp only
    split
    · exact (by decide : 1 < 5)
    · show (if Ring.after t.tx.head = t.tx.tail then 4 else 3) < 5
      split <;> decide
  | store c i =>
    have now : t.ahead = 2 := by rw [ahead, at_]
    rw [proceed, at_] at next
    rw [Moves, next]
    refine .inr (.inl (left_lt rfl ?_))
    rw [now]
    exact Nat.lt_succ_self 1

/-- An event other than the program's own: where it is the one that helps, a byte moves on. -/
theorem moves_drains (h : Sound t) {e : Event} (other : e ≠ .proceed)
    (idle : e = t.drains → step e t = t → t.load = 0)
    (moved : step e t = t ∨ (step e t).load < t.load) : Moves t e := by
  rcases moved with stays | fewer
  · refine .inr (.inr ⟨fun helps => ?_, by rw [stays], by rw [stays]⟩)
    have waits : t.flushes = t.helps → False := fun same => by
      rw [← same, flushes] at helps
      split at helps
      case isTrue => exact other helps
      case isFalse busy => exact busy (idle helps stays)
    cases at_ : t.place with
    | queued | complete | poll => exact waits (by rw [Transmitter.helps, at_])
    | full c i =>
      rw [Transmitter.helps, at_] at helps
      dsimp only at helps
      split at helps
      case isTrue full => exact load_ne_zero (h.full_queued at_ full) (idle helps stays)
      case isFalse => exact other helps
    | _ =>
      rw [Transmitter.helps, at_] at helps
      exact other helps
  · exact .inr (.inl (left_of_load fewer))

theorem moves_irq (h : Sound t) : Moves t .irq := by
  have next : step .irq t = if t.interrupts && t.udrie0 && t.udre0 then t.txUdrEmptyIrq else t := rfl
  refine moves_drains h nofun (fun helps stays => ?_) ?_
  · rcases t.drains_cases with ⟨-, drains⟩ | ⟨-, -, drains⟩ | ⟨shifter, udr, on, -⟩ | ⟨-, -, -, drains⟩
    · cases helps.trans drains
    · cases helps.trans drains
    · by_contra busy
      have queued := queued_of_load busy shifter udr
      have comes : (t.interrupts && t.udrie0 && t.udre0) = true := by
        rw [on, h.drie.mpr queued, udre0, udr]
        rfl
      have fewer := load_txUdrEmptyIrq queued udr
      rw [if_pos comes] at next
      rw [← next, stays] at fewer
      exact Nat.lt_irrefl _ fewer
    · cases helps.trans drains
  · rw [next]
    split
    case isTrue comes =>
      rw [Bool.and_eq_true, Bool.and_eq_true] at comes
      exact .inr (load_txUdrEmptyIrq (h.drie.mp comes.1.2) (free_of_udre0 comes.2))
    case isFalse => exact .inl rfl

theorem moves_take (h : Sound t) : Moves t .take := by
  have next : step .take t = if t.shifter = none then {t with shifter := t.udr, udr := none} else t :=
    rfl
  cases busy : t.shifter with
  | some x =>
    rw [if_neg (by rw [busy]; nofun)] at next
    refine moves_drains h nofun (fun helps _ => ?_) (.inl next)
    rw [drains, if_pos (by rw [busy]; nofun)] at helps
    cases helps
  | none =>
    rw [if_pos busy] at next
    cases waiting : t.udr with
    | none =>
      have stays : step .take t = t := by
        have same : t.shifter = t.udr := busy.trans waiting.symm
        rw [next, ← same, ← waiting]
      refine moves_drains h nofun (fun helps _ => ?_) (.inl stays)
      rcases t.drains_cases with ⟨held, -⟩ | ⟨-, held, -⟩ | ⟨-, -, -, drains⟩ | ⟨-, -, -, drains⟩
      · exact absurd busy held
      · exact absurd waiting held
      · cases helps.trans drains
      · cases helps.trans drains
    | some x =>
      have fewer : (step .take t).load < t.load := by
        rw [next, load, load, busy, waiting]
        exact Nat.lt_succ_self _
      refine moves_drains h nofun (fun _ stays => ?_) (.inr fewer)
      rw [stays] at fewer
      exact absurd fewer (Nat.lt_irrefl _)

theorem moves_shifted (h : Sound t) : Moves t .shifted := by
  cases busy : t.shifter with
  | none =>
    have stays : step .shifted t = t := by rw [step, busy]
    refine moves_drains h (by decide) (fun helps _ => ?_) (.inl stays)
    rcases t.drains_cases with ⟨held, -⟩ | ⟨-, -, drains⟩ | ⟨-, -, -, drains⟩ | ⟨-, -, -, drains⟩
    · exact absurd busy held
    · cases helps.trans drains
    · cases helps.trans drains
    · cases helps.trans drains
  | some x =>
    have fewer : (step .shifted t).load < t.load := by
      rw [step, busy, load, load, busy]
      exact Nat.lt_succ_self _
    refine moves_drains h (by decide) (fun _ stays => ?_) (.inr fewer)
    rw [stays] at fewer
    exact absurd fewer (Nat.lt_irrefl _)

theorem moves_step (e : Event) (t : Transmitter) (h : Sound t) (busy : t.place ≠ .idle) :
    Moves t e := by
  have called : (∀ own ∈ [Event.proceed, .irq, .take, .shifted], e ≠ own) → step e t = t →
      Moves t e := fun call stays => by
    refine moves_drains h (call _ (by decide)) (fun helps _ => ?_) (.inl stays)
    rcases t.drains_cases with ⟨-, drains⟩ | ⟨-, -, drains⟩ | ⟨-, -, -, drains⟩ | ⟨-, -, -, drains⟩
    all_goals exact absurd (helps.trans drains) (call _ (by decide))
  cases e with
  | proceed => exact moves_proceed h busy
  | irq => exact moves_irq h
  | take => exact moves_take h
  | shifted => exact moves_shifted h
  | callWrite c => exact called (by simp) (if_neg busy)
  | callFlush => exact called (by simp) (if_neg busy)
  | setInterrupts on => exact called (by simp) (if_neg busy)

theorem progress : Progress step Sound (fun t => t.place = .idle) left helps :=
  ⟨sound_step, moves_step⟩

theorem helps_mem (t : Transmitter) : t.helps ∈ [Event.proceed, .irq, .take, .shifted] := by
  have drains : t.drains ∈ [Event.proceed, .irq, .take, .shifted] := by
    rcases t.drains_cases with ⟨-, is⟩ | ⟨-, -, is⟩ | ⟨-, -, -, is⟩ | ⟨-, -, -, is⟩
    all_goals
      rw [is]
      decide
  have flushes : t.flushes ∈ [Event.proceed, .irq, .take, .shifted] := by
    unfold Transmitter.flushes
    split
    · decide
    · exact drains
  cases at_ : t.place with
  | queued | complete | poll =>
    rw [helps, at_]
    exact flushes
  | full c i =>
    rw [helps, at_]
    dsimp only
    split
    · exact drains
    · decide
  | _ =>
    rw [helps, at_]
    exact List.mem_cons_self

/-- **Every call comes back.** Cut a run, from any state that can come up, into rounds in which
the program, the interrupt and the two actions of the hardware each get a turn, in any order
and as often as they like. Within 1544 of them, `write` or `flush` has come back. -/
theorem call_returns (events : List Event) (rounds : List (List Event))
    (fair : ∀ round ∈ rounds, ∀ e ∈ [Event.proceed, .irq, .take, .shifted], e ∈ round)
    (long : 1543 < rounds.length) :
    Reached step (fun t => t.place = .idle) (reset.after events) rounds.flatten := by
  have within := left_le (reset.after events)
  exact progress.reaches rounds (fun round among t => fair round among _ (helps_mem t)) _
    (sound_run events) (by omega)

theorem call_returns_from_write :
    Reached step (fun t => t.place = .idle) (reset.after [.setInterrupts false, .callWrite 65])
      (List.replicate 1544 [Event.proceed, .irq, .take, .shifted]).flatten :=
  call_returns _ _ (fun round among => by simp [List.eq_of_mem_replicate among])
    (by rw [List.length_replicate]; decide)

end Transmitter

end CofferLed.Core
