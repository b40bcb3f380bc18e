import CofferLed.Library.Runs
import Mathlib.Logic.Function.Basic

/-! Hand-timed code on an AVR core, clock cycle by clock cycle.

The instructions are those of the core with the operands of inline assembly: registers and
pointer registers go by name, and a label stands for the code behind it, up to the end of
its block. What such code is written for is a waveform, the bytes that one address of the
data memory (an output port) holds from cycle to cycle. An instruction takes effect at its
end, so during its cycles the memory is still as it found it.

`Reaches` says that code gets from one state to another and what it shows on the way. It
composes (`Reaches.trans`), and a loop over a list is its body once for each element
(`Reaches.each`). -/
namespace CofferLed.Library.Avr
variable {ρ ω L : Type} [DecidableEq ρ] [DecidableEq ω]

inductive Instr (ρ ω L : Type) where
  | nop
  | mov (d r : ρ)
  | ldi (d : ρ) (k : BitVec 8)
  | dec (d : ρ)
  | rol (d : ρ)
  /-- `st X, r`, through a pointer register. -/
  | st (x : ω) (r : ρ)
  /-- `ld d, X+`. -/
  | ldInc (d : ρ) (x : ω)
  | sbiw (w : ω) (k : BitVec 16)
  /-- Skips the next instruction if the bit is clear. -/
  | sbrc (r : ρ) (bit : Nat)
  | breq (l : L)
  | brne (l : L)
  | rjmp (l : L)
  /-- `rjmp .+0`, to the next instruction. -/
  | rjmpNext

structure Machine (ρ ω : Type) where
  reg : ρ → BitVec 8
  ptr : ω → BitVec 16
  mem : BitVec 16 → BitVec 8
  zero : Bool
  carry : Bool

/-- The code still to run, and the core. -/
structure State (ρ ω L : Type) where
  rest : List (Instr ρ ω L)
  core : Machine ρ ω

namespace State

/-- The clock cycles of the next instruction. A skip takes the place of the instruction
skipped, which here is one word long, and a branch costs one more when it is taken. -/
def cycles (s : State ρ ω L) : Nat :=
  match s.rest with
  | [] => 0
  | .st .. :: _ | .ldInc .. :: _ | .sbiw .. :: _ | .rjmp _ :: _ | .rjmpNext :: _ => 2
  | .sbrc r bit :: _ => if (s.core.reg r).getLsbD bit then 1 else 2
  | .breq _ :: _ => if s.core.zero then 2 else 1
  | .brne _ :: _ => if s.core.zero then 1 else 2
  | _ :: _ => 1

def next (code : L → List (Instr ρ ω L)) (s : State ρ ω L) : State ρ ω L :=
  let m := s.core
  match s.rest with
  | [] => s
  | .nop :: k => ⟨k, m⟩
  | .mov d r :: k => ⟨k, {m with reg := Function.update m.reg d (m.reg r)}⟩
  | .ldi d v :: k => ⟨k, {m with reg := Function.update m.reg d v}⟩
  | .dec d :: k =>
    ⟨k, {m with reg := Function.update m.reg d (m.reg d - 1), zero := m.reg d - 1 == 0}⟩
  | .rol d :: k =>
    let rolled := m.reg d <<< 1 ||| (BitVec.ofBool m.carry).setWidth 8
    ⟨k, {m with
      reg := Function.update m.reg d rolled, zero := rolled == 0, carry := (m.reg d).getLsbD 7}⟩
  | .st x r :: k => ⟨k, {m with mem := Function.update m.mem (m.ptr x) (m.reg r)}⟩
  | .ldInc d x :: k =>
    ⟨k, {m with
      reg := Function.update m.reg d (m.mem (m.ptr x)), ptr := Function.update m.ptr x (m.ptr x + 1)}⟩
  | .sbiw w v :: k =>
    ⟨k, {m with
      ptr := Function.update m.ptr w (m.ptr w - v), zero := m.ptr w - v == 0, carry := (m.ptr w).ult v}⟩
  | .sbrc r bit :: k => ⟨if (m.reg r).getLsbD bit then k else k.tail, m⟩
  | .breq l :: k => ⟨if m.zero then code l else k, m⟩
  | .brne l :: k => ⟨if m.zero then k else code l, m⟩
  | .rjmp l :: _ => ⟨code l, m⟩
  | .rjmpNext :: k => ⟨k, m⟩

/-- What an address holds during the next instruction. -/
def shows (address : BitVec 16) (s : State ρ ω L) : List (BitVec 8) :=
  List.replicate s.cycles (s.core.mem address)

end State

/-! ### Executions -/

section
variable (code : L → List (Instr ρ ω L)) (address : BitVec 16)

/-- The state after `n` instructions. Where the code ends nothing moves any more. -/
def after (n : Nat) (s : State ρ ω L) : State ρ ω L :=
  run (fun (_ : Unit) s => s.next code) s (List.replicate n ())

/-- What the address holds, cycle by cycle, during `n` instructions. -/
def wave (n : Nat) (s : State ρ ω L) : List (BitVec 8) :=
  trace (fun (_ : Unit) s => s.next code) (fun _ s => s.shows address) s (List.replicate n ())

theorem after_add (m n : Nat) (s : State ρ ω L) :
    after code (m + n) s = after code n (after code m s) := by
  rw [after, ← List.replicate_append_replicate, run_append]
  rfl

theorem wave_add (m n : Nat) (s : State ρ ω L) :
    wave code address (m + n) s = wave code address m s ++ wave code address n (after code m s) := by
  rw [wave, ← List.replicate_append_replicate, trace_append]
  rfl

/-- Code gets from `s` to `t` and shows `w` on the way. -/
def Reaches (s : State ρ ω L) (w : List (BitVec 8)) (t : State ρ ω L) : Prop :=
  ∃ n, after code n s = t ∧ wave code address n s = w

variable {code address}

theorem Reaches.refl (s : State ρ ω L) : Reaches code address s [] s := ⟨0, rfl, rfl⟩

theorem Reaches.trans {s t u : State ρ ω L} {v w : List (BitVec 8)}
    (first : Reaches code address s v t) (last : Reaches code address t w u) :
    Reaches code address s (v ++ w) u := by
  obtain ⟨m, rfl, rfl⟩ := first
  obtain ⟨n, rfl, rfl⟩ := last
  exact ⟨m + n, after_add code m n s, wave_add code address m n s⟩

/-- **Loops.** A loop that is left from within its last round: if a round takes the first
element off whenever more follow, the loop runs once for each element up to the last. -/
theorem Reaches.each {β : Type} (At : List β → State ρ ω L → Prop) (pulse : β → List (BitVec 8))
    (round : ∀ x y xs s, At (x :: y :: xs) s →
      ∃ t, Reaches code address s (pulse x) t ∧ At (y :: xs) t)
    (xs : List β) (last : β) (s : State ρ ω L) (start : At (xs ++ [last]) s) :
    ∃ t, Reaches code address s (xs.flatMap pulse) t ∧ At [last] t := by
  induction xs generalizing s with
  | nil => exact ⟨s, Reaches.refl s, start⟩
  | cons x rest ih =>
    obtain ⟨y, more, shape⟩ : ∃ y more, rest ++ [last] = y :: more :=
      List.exists_cons_of_ne_nil (by simp)
    have here : At (x :: y :: more) s := shape ▸ start
    obtain ⟨t, once, there⟩ := round x y more s here
    obtain ⟨u, later, done⟩ := ih t (shape ▸ there)
    exact ⟨u, once.trans later, done⟩

theorem after_halted {s : State ρ ω L} (halted : s.rest = []) (n : Nat) : after code n s = s := by
  have still : s.next code = s := by
    obtain ⟨rest, core⟩ := s
    cases halted
    rfl
  unfold after
  induction n with
  | zero => rfl
  | succ n ih => rw [List.replicate_succ, run, still, ih]

theorem wave_halted {s : State ρ ω L} (halted : s.rest = []) (n : Nat) :
    wave code address n s = [] := by
  refine trace_eq_nil (fun s => s.rest = []) (fun _ s h => ?_) (fun _ s h => ?_) s halted _
  · obtain ⟨rest, core⟩ := s
    cases h
    rfl
  · obtain ⟨rest, core⟩ := s
    cases h
    rfl

/-- Code that has ended stays ended: from some number of instructions on the outcome and
the waveform are the same. -/
theorem Reaches.stable {s t : State ρ ω L} {w : List (BitVec 8)} (h : Reaches code address s w t)
    (halted : t.rest = []) :
    ∃ enough, ∀ n, enough ≤ n → after code n s = t ∧ wave code address n s = w := by
  obtain ⟨m, rfl, rfl⟩ := h
  refine ⟨m, fun n le => ?_⟩
  obtain ⟨k, rfl⟩ := Nat.exists_eq_add_of_le le
  rw [after_add, wave_add, after_halted halted, wave_halted halted, List.append_nil]
  exact ⟨rfl, rfl⟩

end

end CofferLed.Library.Avr
