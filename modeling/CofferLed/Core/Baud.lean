import CofferLed.Core.Arithmetic

/-! The rate of the serial port.

`begin` turns a baud rate into a divisor of the clock. It tries the mode with eight clock
cycles to a unit first and falls back to the one with sixteen where the divisor would not
fit its register, or where it is asked for 57600 baud. -/
namespace CofferLed.Core
open Library

def fCpu : BitVec 32 := 16000000

/-- What `begin` writes to the registers of the port, `_ubrrh` and `_ubrrl` as one. -/
structure Usart where
  u2x0 : Bool
  ubrr : BitVec 16
  ucsrc : BitVec 8
  rxen0 : Bool
  txen0 : Bool
  rxcie0 : Bool
  udrie0 : Bool

namespace Usart

/-- `(F_CPU / n / baud - 1) / 2`, in 32 bits, and kept in 16. -/
def baudSetting (n baud : BitVec 32) : Exec (BitVec 16) := do
  Checked.require (baud ≠ 0) .division
  pure (((fCpu / n / baud - 1) / 2).setWidth 16)

def begin (baud : BitVec 32) (config : BitVec 8) : Exec Usart := do
  let fast ← baudSetting 4 baud
  let registers (u2x0 : Bool) (ubrr : BitVec 16) : Usart :=
    { u2x0, ubrr, ucsrc := config, rxen0 := true, txen0 := true, rxcie0 := true, udrie0 := false }
  if fCpu = 16000000 ∧ baud = 57600 ∨ fast > 4095 then do
    let slow ← baudSetting 8 baud
    pure (registers false slow)
  else pure (registers true fast)

/-- The clock cycles that the hardware takes for a bit. The divisor has 12 bits there. -/
def bitCycles (u : Usart) : Nat := (if u.u2x0 then 8 else 16) * (u.ubrr.toNat % 4096 + 1)

/-- A bit takes as long as the rate asks for, to within half a unit. -/
def Accurate (baud : BitVec 32) (u : Usart) : Prop :=
  let slack := if u.u2x0 then 4 else 8
  u.bitCycles * baud.toNat ≤ fCpu.toNat + slack * baud.toNat ∧
    fCpu.toNat ≤ u.bitCycles * baud.toNat + slack * baud.toNat

/-! ### The divisor -/

theorem baudSetting_toNat {n baud : BitVec 32} {k : Nat} (clock : (fCpu / n).toNat = k) :
    (baudSetting n baud).val.toNat =
      if k / baud.toNat = 0 then 65535 else (k / baud.toNat - 1) / 2 % 65536 := by
  have quotient : (fCpu / n / baud).toNat = k / baud.toNat := by rw [BitVec.toNat_udiv, clock]
  show (((fCpu / n / baud - 1) / 2).setWidth 16).toNat = _
  rw [← quotient]
  generalize fCpu / n / baud = q
  have bound := q.isLt
  have two : (2 : BitVec 32).toNat = 2 := rfl
  rw [BitVec.toNat_setWidth, BitVec.toNat_udiv, two]
  split
  case isTrue none =>
    have wrapped : (q - 1).toNat = 2 ^ 32 - 1 := by bv_omega
    rw [wrapped]
    decide
  case isFalse some =>
    have less : (q - 1).toNat = q.toNat - 1 := by bv_omega
    rw [less]

/-- Halving rounds to the nearest: twice the units, times the rate, is the clock to within the
rate. -/
theorem near {k b s : Nat} (some : k / b ≠ 0) (half : (k / b - 1) / 2 = s) :
    2 * (s + 1) * b ≤ k + b ∧ k ≤ 2 * (s + 1) * b + b := by
  have pos : 0 < b := Nat.pos_of_ne_zero fun zero => some (by rw [zero, Nat.div_zero])
  have division := Nat.div_add_mod k b
  have rest := Nat.mod_lt k pos
  generalize k / b = q at *
  have above : 2 * (s + 1) * b ≤ (q + 1) * b := Nat.mul_le_mul_right b (by omega)
  have below : (q + 1) * b ≤ (2 * (s + 1) + 1) * b := Nat.mul_le_mul_right b (by omega)
  rw [Nat.add_one_mul q, Nat.mul_comm q] at above below
  rw [Nat.add_one_mul (2 * (s + 1))] at below
  omega

theorem begin_fast {baud : BitVec 32} {config : BitVec 8} (other : baud ≠ 57600)
    (fits : (baudSetting 4 baud).val ≤ 4095) :
    let u := (begin baud config).val
    u.u2x0 = true ∧ u.ubrr = (baudSetting 4 baud).val := by
  have first : ¬ (fCpu = 16000000 ∧ baud = 57600 ∨ (baudSetting 4 baud).val > 4095) := by
    rintro (⟨-, same⟩ | above)
    · exact other same
    · exact absurd fits (BitVec.not_le.mpr above)
  rw [begin, Checked.val_bind, if_neg first]
  exact ⟨rfl, rfl⟩

theorem begin_slow {baud : BitVec 32} {config : BitVec 8}
    (falls : baud = 57600 ∨ (baudSetting 4 baud).val > 4095) :
    let u := (begin baud config).val
    u.u2x0 = false ∧ u.ubrr = (baudSetting 8 baud).val := by
  have second : fCpu = 16000000 ∧ baud = 57600 ∨ (baudSetting 4 baud).val > 4095 :=
    falls.imp_left fun same => ⟨rfl, same⟩
  rw [begin, Checked.val_bind, if_pos second]
  exact ⟨rfl, rfl⟩

theorem bitCycles_le (u : Usart) : u.bitCycles ≤ 65536 := by
  have divisor := Nat.mod_lt u.ubrr.toNat (by decide : 4096 > 0)
  unfold bitCycles
  split <;> omega

/-- A rate so low that no divisor is long enough. -/
theorem not_accurate_low {baud : BitVec 32} (low : baud.toNat < 245) (u : Usart) :
    ¬ Accurate baud u := by
  rintro ⟨-, long⟩
  have most : u.bitCycles * baud.toNat ≤ 65536 * 244 :=
    Nat.mul_le_mul u.bitCycles_le (Nat.le_of_lt_succ low)
  have clock : fCpu.toNat = 16000000 := rfl
  rw [clock] at long
  split at long <;> omega

/-- In the fast mode, with a divisor that was not cut off. -/
theorem accurate_fast {baud : BitVec 32} {u : Usart} (mode : u.u2x0 = true)
    (some : 4000000 / baud.toNat ≠ 0) (divisor : (4000000 / baud.toNat - 1) / 2 = u.ubrr.toNat)
    (fits : u.ubrr.toNat < 4096) : Accurate baud u := by
  obtain ⟨above, below⟩ := near some divisor
  have cycles : u.bitCycles = 4 * (2 * (u.ubrr.toNat + 1)) := by
    rw [bitCycles, mode, Nat.mod_eq_of_lt fits, if_pos rfl]
    omega
  have clock : fCpu.toNat = 4 * 4000000 := rfl
  rw [Accurate, mode, if_pos rfl, cycles, clock, Nat.mul_assoc]
  omega

/-- In the slow one. -/
theorem accurate_slow {baud : BitVec 32} {u : Usart} (mode : u.u2x0 = false)
    (some : 2000000 / baud.toNat ≠ 0) (divisor : (2000000 / baud.toNat - 1) / 2 = u.ubrr.toNat)
    (fits : u.ubrr.toNat < 4096) : Accurate baud u := by
  obtain ⟨above, below⟩ := near some divisor
  have cycles : u.bitCycles = 8 * (2 * (u.ubrr.toNat + 1)) := by
    rw [bitCycles, mode, Nat.mod_eq_of_lt fits, if_neg (by decide)]
    omega
  have clock : fCpu.toNat = 8 * 2000000 := rfl
  rw [Accurate, mode, if_neg (by decide), cycles, clock, Nat.mul_assoc]
  omega

theorem accurate_high {baud : BitVec 32} {config : BitVec 8} (high : 4000000 < baud.toNat) :
    ¬ Accurate baud (begin baud config).val := by
  have fast : (baudSetting 4 baud).val.toNat = 65535 := by
    rw [baudSetting_toNat (k := 4000000) rfl, if_pos (Nat.div_eq_of_lt high)]
  have slow : (baudSetting 8 baud).val.toNat = 65535 := by
    rw [baudSetting_toNat (k := 2000000) rfl, if_pos (Nat.div_eq_of_lt (by omega))]
  obtain ⟨mode, ubrr⟩ := begin_slow (.inr (BitVec.lt_def.mpr (by rw [fast]; decide)))
  rintro ⟨short, -⟩
  have clock : fCpu.toNat = 16000000 := rfl
  rw [bitCycles, mode, ubrr, slow, clock] at short
  simp only [Bool.false_eq_true, if_false] at short
  omega

theorem accurate_between {baud : BitVec 32} {config : BitVec 8} (low : 245 ≤ baud.toNat)
    (high : baud.toNat ≤ 4000000) : Accurate baud (begin baud config).val := by
  have some_fast : 4000000 / baud.toNat ≠ 0 := Nat.pos_iff_ne_zero.mp (Nat.div_pos high (by omega))
  have few_fast : 4000000 / baud.toNat ≤ 16327 := Nat.div_le_of_le_mul (by omega)
  have fast : (baudSetting 4 baud).val.toNat = (4000000 / baud.toNat - 1) / 2 := by
    rw [baudSetting_toNat (k := 4000000) rfl, if_neg some_fast]
    omega
  by_cases falls : baud = 57600 ∨ (baudSetting 4 baud).val > 4095
  · have middle : baud.toNat ≤ 2000000 := by
      rcases falls with rfl | above
      · decide
      · have above : 4095 < (baudSetting 4 baud).val.toNat := above
        have whole := Nat.div_mul_le_self 4000000 baud.toNat
        have much : 8193 * baud.toNat ≤ 4000000 / baud.toNat * baud.toNat :=
          Nat.mul_le_mul_right _ (by omega)
        omega
    have some_slow : 2000000 / baud.toNat ≠ 0 :=
      Nat.pos_iff_ne_zero.mp (Nat.div_pos middle (by omega))
    have few_slow : 2000000 / baud.toNat ≤ 8164 := Nat.div_le_of_le_mul (by omega)
    have slow : (baudSetting 8 baud).val.toNat = (2000000 / baud.toNat - 1) / 2 := by
      rw [baudSetting_toNat (k := 2000000) rfl, if_neg some_slow]
      omega
    obtain ⟨mode, ubrr⟩ := begin_slow falls
    exact accurate_slow mode some_slow (by rw [ubrr, slow]) (by rw [ubrr, slow]; omega)
  · obtain ⟨other, fits⟩ := not_or.mp falls
    have fits : (baudSetting 4 baud).val ≤ 4095 := BitVec.not_lt.mp fits
    have bound : (baudSetting 4 baud).val.toNat ≤ 4095 := fits
    obtain ⟨mode, ubrr⟩ := begin_fast other fits
    exact accurate_fast mode some_fast (by rw [ubrr, fast]) (by rw [ubrr]; omega)

/-- **The rates that work.** At any rate but zero nothing goes wrong in the computation, and the
rate that comes out of it is the one asked for, exactly from 245 baud to four million: below,
no divisor is long enough, and above, the computation wraps. -/
theorem begin_accurate (baud : BitVec 32) (config : BitVec 8) :
    ((begin baud config).Safe ↔ baud ≠ 0) ∧
      (Accurate baud (begin baud config).val ↔ 245 ≤ baud.toNat ∧ baud.toNat ≤ 4000000) := by
  have divides (n : BitVec 32) : (baudSetting n baud).Safe ↔ baud ≠ 0 := by
    rw [baudSetting, Checked.safe_bind, Checked.safe_require]
    exact and_iff_left (Checked.safe_pure _)
  refine ⟨?_, fun right => ⟨?_, ?_⟩, fun range => accurate_between range.1 range.2⟩
  · rw [begin, Checked.safe_bind, divides]
    refine and_iff_left_of_imp fun some => ?_
    split
    · exact (Checked.safe_bind _ _).mpr ⟨(divides 8).mpr some, Checked.safe_pure _⟩
    · exact Checked.safe_pure _
  · exact Nat.not_lt.mp fun low => not_accurate_low low _ right
  · exact Nat.not_lt.mp fun high => accurate_high high right

end Usart

end CofferLed.Core
