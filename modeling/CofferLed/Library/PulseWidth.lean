import Mathlib.Tactic.Common

/-! Bits told apart by how long a line is high.

The line is sampled in equal steps. For every bit it goes up once and comes down again, and
what the receiver looks at is only how long it was up, against a threshold. What lies
between two pulses says nothing, so the gaps may have any length. -/
namespace CofferLed.Library.PulseWidth

/-- The bits of a line that has been high for `h` samples already. A bit counts when the
line comes down. -/
def decode (threshold : Nat) : Nat → List Bool → List Bool
  | _, [] => []
  | h, true :: rest => decode threshold (h + 1) rest
  | 0, false :: rest => decode threshold 0 rest
  | h + 1, false :: rest => decide (threshold < h + 1) :: decode threshold 0 rest

/-- One bit: a gap, a pulse, a gap. -/
def IsPulse (threshold : Nat) (b : Bool) (w : List Bool) : Prop :=
  ∃ before long behind, 0 < long ∧ 0 < behind ∧ decide (threshold < long) = b ∧
    w = List.replicate before false ++ List.replicate long true ++ List.replicate behind false

variable {threshold : Nat}

theorem decode_high (h n : Nat) (rest : List Bool) :
    decode threshold h (List.replicate n true ++ rest) = decode threshold (h + n) rest := by
  induction n generalizing h with
  | zero => rfl
  | succ n ih =>
    rw [List.replicate_succ, List.cons_append, decode, ih]
    congr 1
    omega

theorem decode_low (n : Nat) (rest : List Bool) :
    decode threshold 0 (List.replicate n false ++ rest) = decode threshold 0 rest := by
  induction n with
  | zero => rfl
  | succ n ih => rw [List.replicate_succ, List.cons_append, decode, ih]

theorem decode_pulse {b : Bool} {w : List Bool} (pulse : IsPulse threshold b w)
    (rest : List Bool) : decode threshold 0 (w ++ rest) = b :: decode threshold 0 rest := by
  obtain ⟨before, long, behind, up, down, rfl, rfl⟩ := pulse
  obtain ⟨long, rfl⟩ := Nat.exists_eq_succ_of_ne_zero (Nat.ne_of_gt up)
  obtain ⟨behind, rfl⟩ := Nat.exists_eq_succ_of_ne_zero (Nat.ne_of_gt down)
  rw [List.append_assoc, List.append_assoc, decode_low, decode_high, Nat.zero_add,
    List.replicate_succ (n := behind), List.cons_append, decode, decode_low]

/-- A sender that gives every bit its pulse is understood. -/
theorem decode_pulses {β : Type} (bit : β → Bool) (wave : β → List Bool)
    (pulse : ∀ x, IsPulse threshold (bit x) (wave x)) (xs : List β) (rest : List Bool) :
    decode threshold 0 (xs.flatMap wave ++ rest) = xs.map bit ++ decode threshold 0 rest := by
  induction xs with
  | nil => rfl
  | cons x xs ih =>
    rw [List.flatMap_cons, List.append_assoc, decode_pulse (pulse x), ih]
    rfl

end CofferLed.Library.PulseWidth
