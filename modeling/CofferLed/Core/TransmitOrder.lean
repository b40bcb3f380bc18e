import CofferLed.Core.Transmit

/-! No byte is lost on its way out.

Every byte for which `write` was called is in exactly one place, in the order of the calls
(`bytes_in_order`), and `flush` comes back only when the last one is on the line
(`flush_drained`). -/
namespace CofferLed.Core
open Library

namespace Transmitter

/-! ### What holds between any two steps -/

structure Sound (t : Transmitter) : Prop where
  order : t.line ++ (t.shifter.toList ++ (t.udr.toList ++ (t.tx.contents ++ t.place.pending))) =
    t.asked
  drie : t.udrie0 = true ↔ t.tx.head ≠ t.tx.tail
  /-- A set flag is right, and it stays clear only before the first byte is out. -/
  txc : t.txc0 = true → t.shifter = none ∧ t.udr = none
  fresh : t.txc0 = false → t.shifter = none → t.udr = none → t.line = []
  written : t.written = true → t.asked ≠ []
  unwritten : t.written = false → t.asked = t.place.pending
  begun : t.place.begun = true → t.written = true
  knows : t.place.Knows t.tx t.udr

variable {t : Transmitter}

theorem sound_reset : Sound reset := by
  have none : reset.tx.contents = [] := Ring.contents_empty _
  refine ⟨?_, ?_, nofun, fun _ _ _ => rfl, nofun, fun _ => rfl, nofun, trivial⟩
  · rw [none]
    rfl
  · exact ⟨nofun, fun apart => absurd rfl apart⟩

/-- The program moves on and the byte it carries stays the same. -/
theorem Sound.moved (h : Sound t) {p : Place} (same : p.pending = t.place.pending)
    (begun : t.written = true) (knows : p.Knows t.tx t.udr) : Sound {t with place := p} := by
  refine ⟨?_, h.drie, h.txc, h.fresh, h.written, ?_, fun _ => begun, knows⟩
  · rw [same]
    exact h.order
  · rw [same]
    exact h.unwritten

theorem knows_taken {p : Place} {tx : Ring (BitVec 8) serialTxBufferSize}
    {udr : Option (BitVec 8)} (h : p.Knows tx none) (queued : tx.head ≠ tx.tail) :
    p.Knows {tx with tail := Ring.after tx.tail} udr := by
  have apart : Ring.after tx.head ≠ Ring.after tx.tail := fun same => queued (Ring.after_inj same)
  cases p with
  | ready c => exact absurd h queued
  | direct c => exact absurd h.1 queued
  | complete => exact absurd h queued
  | full c i => exact h
  | store c i => exact ⟨h.1, h.1 ▸ apart⟩
  | publish c i => exact ⟨h.1, h.1 ▸ apart, h.2.2⟩
  | _ => trivial

/-- What the place tells still holds when the register is emptied. -/
theorem knows_freed {p : Place} {tx : Ring (BitVec 8) serialTxBufferSize}
    {udr : Option (BitVec 8)} (h : p.Knows tx udr) : p.Knows tx none := by
  cases p with
  | direct c => exact ⟨h.1, rfl⟩
  | ready c => exact h
  | complete => exact h
  | full c i => exact h
  | store c i => exact h
  | publish c i => exact h
  | _ => trivial

theorem Sound.txUdrEmptyIrq (h : Sound t) (queued : t.tx.head ≠ t.tx.tail) (free : t.udr = none) :
    Sound t.txUdrEmptyIrq := by
  rw [txUdrEmptyIrq_eq free]
  refine ⟨?_, ?_, nofun, nofun, h.written, h.unwritten, h.begun, ?_⟩
  · have order := h.order
    rw [free, Ring.contents_cons t.tx queued] at order
    exact order
  · have on := h.drie.mpr queued
    simp only [on, Bool.true_and, bne_iff_ne]
  · have knows := h.knows
    rw [free] at knows
    exact knows_taken knows queued

theorem free_of_udre0 (h : t.udre0 = true) : t.udr = none := Option.isNone_iff_eq_none.mp h

/-- `direct`: the byte goes into the register that is free. -/
theorem sound_direct (h : Sound t) {c : BitVec 8} (at_ : t.place = .direct c) :
    Sound t.proceed := by
  have knows := h.knows
  have order := h.order
  rw [at_] at knows order
  obtain ⟨drained, free⟩ := knows
  have nothing : t.tx.contents = [] := Ring.contents_drained _ drained
  have begun : t.written = true := h.begun (by rw [at_]; rfl)
  have ready : t.udre0 = true := by rw [udre0, free, Option.isNone_none]
  rw [proceed, at_]
  simp only [putUdr, ready, if_true]
  have unset {P : Prop} (set : false = true) : P := absurd set Bool.false_ne_true
  refine ⟨?_, h.drie, unset, fun _ _ held => ?_, h.written, fun clear => ?_, unset, trivial⟩
  · rw [free, nothing] at order
    rw [nothing]
    exact order
  · exact absurd held (Option.some_ne_none c)
  · exact absurd (begun.symm.trans clear) (by decide)

/-- `publish`: the byte that was stored is in the buffer from here on. -/
theorem sound_publish (h : Sound t) {c : BitVec 8} {i : Fin serialTxBufferSize}
    (at_ : t.place = .publish c i) : Sound t.proceed := by
  have knows := h.knows
  have order := h.order
  rw [at_] at knows order
  obtain ⟨rfl, room, stored⟩ := knows
  have begun : t.written = true := h.begun (by rw [at_]; rfl)
  have grown : ({t.tx with head := Ring.after t.tx.head} : Ring _ _).contents =
      t.tx.contents ++ [c] := by
    rw [← stored]
    exact Ring.contents_advance t.tx room
  rw [proceed, at_]
  refine ⟨?_, ?_, h.txc, h.fresh, h.written, fun clear => ?_, nofun, trivial⟩
  · show _ ++ (_ ++ (_ ++ (_ ++ []))) = _
    rw [List.append_nil, grown]
    exact order
  · exact ⟨fun _ => room, fun _ => rfl⟩
  · exact absurd (begun.symm.trans clear) (by decide)

theorem sound_proceed (h : Sound t) : Sound t.proceed := by
  have knows := h.knows
  have begun := h.begun
  have drie := h.drie
  cases at_ : t.place with
  | idle =>
    rw [proceed, at_]
    exact h
  | write c =>
    have order := h.order
    rw [at_] at order
    have asked : t.asked ≠ [] := by
      rw [← order]
      simp [Place.pending]
    rw [proceed, at_]
    exact ⟨order, h.drie, h.txc, h.fresh, fun _ => asked, nofun, fun _ => rfl, trivial⟩
  | empty c =>
    rw [at_] at begun
    rw [proceed, at_]
    dsimp only
    split
    case isTrue drained => exact h.moved (by rw [at_]; rfl) (begun rfl) drained
    case isFalse => exact h.moved (by rw [at_]; rfl) (begun rfl) rfl
  | ready c =>
    rw [at_] at begun knows
    rw [proceed, at_]
    dsimp only
    split
    case isTrue free =>
      exact h.moved (by rw [at_]; rfl) (begun rfl) ⟨knows, free_of_udre0 free⟩
    case isFalse => exact h.moved (by rw [at_]; rfl) (begun rfl) rfl
  | direct c => exact sound_direct h at_
  | full c i =>
    rw [at_] at begun knows
    rw [proceed, at_]
    dsimp only
    split
    case isTrue full =>
      split
      case isTrue poll =>
        have queued : t.tx.head ≠ t.tx.tail := by
          rw [← full, knows]
          exact Ring.ne_after t.tx.head (by decide)
        exact h.txUdrEmptyIrq queued (free_of_udre0 (Bool.and_eq_true_iff.mp poll).2)
      case isFalse => exact h
    case isFalse room => exact h.moved (by rw [at_]; rfl) (begun rfl) ⟨knows, room⟩
  | store c i =>
    have order := h.order
    have unwritten := h.unwritten
    rw [at_] at begun knows order unwritten
    rw [proceed, at_]
    refine ⟨?_, h.drie, h.txc, h.fresh, h.written, unwritten, fun _ => begun rfl, ?_⟩
    · dsimp only
      rw [Ring.contents_store]
      exact order
    · exact ⟨knows.1, knows.2, Vector.getElem_set_self _⟩
  | publish c i => exact sound_publish h at_
  | flush =>
    have order := h.order
    have unwritten := h.unwritten
    rw [at_] at order unwritten
    rw [proceed, at_]
    dsimp only
    split
    case isTrue started => exact h.moved (by rw [at_]; rfl) started trivial
    case isFalse =>
      exact ⟨order, h.drie, h.txc, h.fresh, h.written, unwritten, nofun, trivial⟩
  | queued =>
    rw [at_] at begun
    rw [proceed, at_]
    dsimp only
    split
    case isTrue => exact h.moved (by rw [at_]; rfl) (begun rfl) trivial
    case isFalse off =>
      have drained : t.tx.head = t.tx.tail := by
        by_contra apart
        exact off (drie.mpr apart)
      exact h.moved (by rw [at_]; rfl) (begun rfl) drained
  | complete =>
    rw [at_] at begun
    rw [proceed, at_]
    dsimp only
    split
    case isTrue => exact h.moved (by rw [at_]; rfl) (begun rfl) trivial
    case isFalse => exact h.moved (by rw [at_]; rfl) (begun rfl) trivial
  | poll =>
    rw [at_] at begun
    have again : Sound {t with place := .queued} := h.moved (by rw [at_]; rfl) (begun rfl) trivial
    rw [proceed, at_]
    dsimp only
    split
    case isTrue poll =>
      rw [Bool.and_eq_true, Bool.and_eq_true] at poll
      exact again.txUdrEmptyIrq (drie.mp poll.1.2) (free_of_udre0 poll.2)
    case isFalse => exact again

theorem sound_step (e : Event) (t : Transmitter) (h : Sound t) : Sound (step e t) := by
  have order := h.order
  cases e with
  | callWrite c =>
    rw [step]
    split
    case isTrue idle =>
      rw [idle] at order
      refine ⟨?_, h.drie, h.txc, h.fresh, fun _ => List.append_ne_nil_of_right_ne_nil _ nofun, ?_,
        nofun, trivial⟩
      · dsimp only
        rw [← order]
        simp [Place.pending]
      · intro clear
        dsimp only
        rw [h.unwritten clear, idle]
        rfl
    case isFalse => exact h
  | callFlush =>
    rw [step]
    split
    case isTrue idle =>
      have unwritten := h.unwritten
      rw [idle] at order unwritten
      exact ⟨order, h.drie, h.txc, h.fresh, h.written, unwritten, nofun, trivial⟩
    case isFalse => exact h
  | setInterrupts on =>
    rw [step]
    split
    case isTrue => exact ⟨h.order, h.drie, h.txc, h.fresh, h.written, h.unwritten, h.begun, h.knows⟩
    case isFalse => exact h
  | proceed => exact sound_proceed h
  | irq =>
    rw [step]
    split
    case isTrue comes =>
      rw [Bool.and_eq_true, Bool.and_eq_true] at comes
      exact h.txUdrEmptyIrq (h.drie.mp comes.1.2) (free_of_udre0 comes.2)
    case isFalse => exact h
  | take =>
    rw [step]
    split
    case isTrue free =>
      rw [free] at order
      refine ⟨order, h.drie, ?_, ?_, h.written, h.unwritten, h.begun, ?_⟩
      · intro set
        exact ⟨(h.txc set).2, rfl⟩
      · intro clear vacant _
        exact h.fresh clear free vacant
      · exact knows_freed h.knows
    case isFalse => exact h
  | shifted =>
    rw [step]
    split
    case h_1 => exact h
    case h_2 x busy =>
      rw [busy] at order
      have clear : t.txc0 = false := by
        by_contra set
        rw [Bool.not_eq_false] at set
        exact absurd ((h.txc set).1.symm.trans busy) nofun
      refine ⟨?_, h.drie, ?_, ?_, h.written, h.unwritten, h.begun, h.knows⟩
      · dsimp only
        rw [List.append_assoc]
        exact order
      · intro set
        rw [clear, Bool.false_or] at set
        exact ⟨rfl, free_of_udre0 set⟩
      · intro still _ free
        have free : t.udr = none := free
        have empty : t.udre0 = true := by rw [udre0, free, Option.isNone_none]
        rw [clear, Bool.false_or, empty] at still
        cases still

theorem sound_run (events : List Event) : Sound (reset.after events) :=
  run_invariant Sound sound_step reset sound_reset events

/-! ### What `flush` promises -/

@[simp] theorem txUdrEmptyIrq_place (t : Transmitter) : t.txUdrEmptyIrq.place = t.place := by
  have put : ∀ (c : BitVec 8) (t : Transmitter), (putUdr c t).place = t.place := fun c t => by
    unfold putUdr
    split <;> rfl
  unfold txUdrEmptyIrq
  dsimp only
  split <;> rw [put]

/-- Only the program itself moves on. -/
theorem step_place {e : Event} (other : e ≠ .proceed) (busy : t.place ≠ .idle) :
    (step e t).place = t.place := by
  cases e with
  | proceed => exact absurd rfl other
  | callWrite c => rw [step, if_neg busy]
  | callFlush => rw [step, if_neg busy]
  | setInterrupts on => rw [step, if_neg busy]
  | irq =>
    rw [step]
    split
    · exact txUdrEmptyIrq_place t
    · rfl
  | take =>
    rw [step]
    split <;> rfl
  | shifted =>
    rw [step]
    split <;> rfl

/-- `flush` comes back in two places only, and in both everything is out. -/
theorem Sound.drained (h : Sound t) (within : t.place ∈ [Place.flush, .queued, .complete, .poll])
    (back : t.proceed.place = .idle) : t.proceed.line = t.asked := by
  have order := h.order
  have knows := h.knows
  simp only [List.mem_cons, List.not_mem_nil, or_false] at within
  rcases within with at_ | at_ | at_ | at_
  · rw [at_] at order
    rw [proceed, at_] at back ⊢
    dsimp only at back ⊢
    split at back
    · cases back
    case isFalse never =>
      have nothing := h.unwritten (Bool.not_eq_true _ ▸ never)
      rw [at_] at nothing
      rw [nothing] at order ⊢
      exact (List.append_eq_nil_iff.mp order).1
  · rw [proceed, at_] at back
    dsimp only at back
    split at back <;> cases back
  · rw [at_] at order knows
    rw [proceed, at_] at back ⊢
    dsimp only at back ⊢
    split at back
    case isTrue set =>
      obtain ⟨shifter, udr⟩ := h.txc set
      rw [shifter, udr, Ring.contents_drained _ knows] at order
      exact (List.append_nil _).symm.trans order
    · cases back
  · rw [proceed, at_] at back
    dsimp only at back
    split at back
    · rw [txUdrEmptyIrq_place] at back
      cases back
    · cases back

/-- **The bytes.** In any run, whatever the order in which the program, the interrupt and the
hardware get to act, the bytes `write` was called for are, in this order: out on the line, in
the shift register, in the data register, in the buffer, and with a call that has not come
back. None is lost, doubled or overtaken. -/
theorem bytes_in_order (events : List Event) :
    let t := reset.after events
    t.line ++ (t.shifter.toList ++ (t.udr.toList ++ (t.tx.contents ++ t.place.pending))) =
      t.asked :=
  (sound_run events).order

/-- **`flush`.** When it comes back, everything is out. -/
theorem flush_drained (events : List Event) (e : Event) :
    let t := reset.after events
    t.place ∈ [Place.flush, .queued, .complete, .poll] → (step e t).place = .idle →
      (step e t).line = t.asked := by
  intro t within back
  have busy : t.place ≠ .idle := fun idle => by
    rw [idle] at within
    exact absurd within (by decide)
  by_cases own : e = .proceed
  · subst own
    exact (sound_run events).drained within back
  · exact absurd ((step_place own busy).symm.trans back) busy

theorem flush_drained_one :
    let t := reset.after [.callWrite 65, .proceed, .proceed, .proceed, .proceed, .take, .shifted,
      .callFlush, .proceed, .proceed]
    (step .proceed t).line = t.asked :=
  flush_drained _ .proceed (by decide +kernel) (by decide +kernel)

end Transmitter

end CofferLed.Core
