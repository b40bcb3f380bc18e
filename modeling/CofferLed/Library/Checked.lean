import Mathlib.Tactic.Common

/-! Computations that keep a log of failed checks.

A program with operations that are only defined on part of their arguments (an
unchecked array access, a narrowing conversion, a division) is written once, each
such operation behind a `require`. `val` is what the program computes when every
operation is read as a total one; `faults` lists the checks that failed on the way,
and a computation is `Safe` when there are none. Counted loops come with the
invariant rule for both readings (`forRange_val`, `forRange_safe`) and with the rule
for loops whose `i`-th round works on the `i`-th cell of a store only
(`forRange_cell`). -/
namespace CofferLed.Library

structure Checked (ε α : Type) where
  val : α
  faults : List ε

namespace Checked
variable {ε α β γ σ : Type}

instance : Monad (Checked ε) where
  pure a := ⟨a, []⟩
  bind x f := ⟨(f x.val).val, x.faults ++ (f x.val).faults⟩

/-- The computation goes on either way; a check that fails is logged. -/
def require (p : Prop) [Decidable p] (e : ε) : Checked ε Unit :=
  ⟨(), if p then [] else [e]⟩

def Safe (x : Checked ε α) : Prop := x.faults = []

@[simp] theorem val_pure (a : α) : (pure a : Checked ε α).val = a := rfl

-- The parentheses keep `simp` from treating this as true by unfolding alone, which the
-- kernel would then redo for whole programs.
@[simp] theorem val_bind (x : Checked ε α) (f : α → Checked ε β) :
    (x >>= f).val = (f x.val).val := (rfl)

@[simp] theorem safe_pure (a : α) : (pure a : Checked ε α).Safe := rfl

@[simp] theorem safe_bind (x : Checked ε α) (f : α → Checked ε β) :
    (x >>= f).Safe ↔ x.Safe ∧ (f x.val).Safe := List.append_eq_nil_iff

@[simp] theorem safe_require (p : Prop) [Decidable p] (e : ε) :
    (require p e).Safe ↔ p := by
  unfold Safe require
  by_cases h : p <;> simp [h]

theorem pure_bind (a : α) (f : α → Checked ε β) : (pure a >>= f : Checked ε β) = f a := rfl

/-- A check that passes is not seen. -/
theorem require_bind {p : Prop} [Decidable p] (h : p) (e : ε) (x : Checked ε α) :
    (require p e >>= fun _ => x) = x := by
  rw [require, if_pos h]
  rfl

theorem val_ite (p : Prop) [Decidable p] (x y : Checked ε α) :
    (if p then x else y).val = if p then x.val else y.val := by
  split <;> rfl

/-! ### One kind of check -/

/-- Of the checks that failed none is of this kind. -/
def Avoids (e : ε) (x : Checked ε α) : Prop := e ∉ x.faults

@[simp] theorem avoids_pure (e : ε) (a : α) : (pure a : Checked ε α).Avoids e := nofun

@[simp] theorem avoids_bind (e : ε) (x : Checked ε α) (f : α → Checked ε β) :
    (x >>= f).Avoids e ↔ x.Avoids e ∧ (f x.val).Avoids e := by
  rw [Avoids, show (x >>= f).faults = x.faults ++ (f x.val).faults from rfl, List.mem_append, not_or]
  rfl

@[simp] theorem avoids_require (e e' : ε) (p : Prop) [Decidable p] :
    (require p e').Avoids e ↔ (e' = e → p) := by
  unfold Avoids require
  by_cases h : p <;> simp [h, eq_comm]

/-! ### Arrays without a bounds check -/

section Arrays
variable {n : Nat} [Inhabited α]

/-- `v[i]`, where nothing stops `i` from being out of range. -/
def readAt (e : ε) (v : Vector α n) (i : Nat) : Checked ε α := do
  require (i < n) e
  pure (if h : i < n then v[i] else default)

/-- `v[i] = x`. -/
def writeAt (e : ε) (v : Vector α n) (i : Nat) (x : α) : Checked ε (Vector α n) := do
  require (i < n) e
  pure (v.setIfInBounds i x)

theorem val_readAt (e : ε) (v : Vector α n) (i : Nat) (h : i < n) :
    (readAt e v i).val = v[i] := dif_pos h

@[simp] theorem safe_readAt (e : ε) (v : Vector α n) (i : Nat) :
    (readAt e v i).Safe ↔ i < n := by
  simp [readAt]

omit [Inhabited α] in
theorem val_writeAt (e : ε) (v : Vector α n) (i : Nat) (x : α) :
    (writeAt e v i x).val = v.setIfInBounds i x := rfl

omit [Inhabited α] in
@[simp] theorem safe_writeAt (e : ε) (v : Vector α n) (i : Nat) (x : α) :
    (writeAt e v i x).Safe ↔ i < n := by
  simp [writeAt]

end Arrays

/-! ### Counted loops -/

/-- `for (i = 0; i < n; ++i) s = body(i, s)`. -/
def forRange : (n : Nat) → (body : Nat → σ → Checked ε σ) → σ → Checked ε σ
  | 0, _, s => pure s
  | n + 1, body, s => do
    let t ← forRange n body s
    body n t

section Loops
variable {n : Nat} {body : Nat → σ → Checked ε σ}

/-- An invariant of the rounds holds after the loop. -/
theorem forRange_val (Inv : Nat → σ → Prop)
    (round : ∀ i, i < n → ∀ s, Inv i s → Inv (i + 1) (body i s).val)
    (s : σ) (h : Inv 0 s) : Inv n (forRange n body s).val := by
  induction n with
  | zero => exact h
  | succ n ih =>
    have before := ih (fun i hi => round i (by omega))
    exact round n (by omega) _ before

/-- A loop is safe when an invariant makes every round safe. -/
theorem forRange_safe (Inv : Nat → σ → Prop)
    (round : ∀ i, i < n → ∀ s, Inv i s → (body i s).Safe ∧ Inv (i + 1) (body i s).val)
    (s : σ) (h : Inv 0 s) : (forRange n body s).Safe := by
  induction n with
  | zero => exact safe_pure s
  | succ n ih =>
    have before := ih (fun i hi => round i (by omega))
    have inv : Inv n (forRange n body s).val :=
      forRange_val Inv (fun i hi t ht => (round i (by omega) t ht).2) s h
    exact (safe_bind _ _).mpr ⟨before, (round n (by omega) _ inv).1⟩

theorem forRange_avoids (e : ε) (Inv : Nat → σ → Prop)
    (round : ∀ i, i < n → ∀ s, Inv i s → (body i s).Avoids e ∧ Inv (i + 1) (body i s).val)
    (s : σ) (h : Inv 0 s) : (forRange n body s).Avoids e := by
  induction n with
  | zero => exact avoids_pure e s
  | succ n ih =>
    have before := ih (fun i hi => round i (by omega))
    have inv : Inv n (forRange n body s).val :=
      forRange_val Inv (fun i hi t ht => (round i (by omega) t ht).2) s h
    exact (avoids_bind e _ _).mpr ⟨before, (round n (by omega) _ inv).1⟩

/-- Two loops side by side. -/
theorem forRange_related {τ : Type} {other : Nat → τ → Checked ε τ} (Rel : σ → τ → Prop)
    (round : ∀ i, i < n → ∀ s t, Rel s t → Rel (body i s).val (other i t).val) (s : σ) (t : τ)
    (h : Rel s t) : Rel (forRange n body s).val (forRange n other t).val := by
  induction n with
  | zero => exact h
  | succ n ih =>
    have before := ih (fun i hi => round i (by omega))
    exact round n (by omega) _ _ before

/-- A loop is safe when every round is safe in every state. -/
theorem forRange_safe_of_rounds (round : ∀ i, i < n → ∀ s, (body i s).Safe) (s : σ) :
    (forRange n body s).Safe :=
  forRange_safe (fun _ _ => True) (fun i hi t _ => ⟨round i hi t, trivial⟩) s trivial

/-- Round `i` rewrites cell `i` and no other cell: the loop rewrites the cells
below `n`, each once, each from what it held before the loop. -/
theorem forRange_cell (get : σ → Nat → γ) (new : Nat → γ → γ)
    (hit : ∀ i, i < n → ∀ s, get (body i s).val i = new i (get s i))
    (frame : ∀ i, i < n → ∀ s j, j ≠ i → get (body i s).val j = get s j) (s : σ) (j : Nat) :
    get (forRange n body s).val j = if j < n then new j (get s j) else get s j := by
  induction n with
  | zero => simp [forRange]
  | succ n ih =>
    have before := ih (fun i hi => hit i (by omega)) (fun i hi => frame i (by omega))
    show get (body n (forRange n body s).val).val j = _
    rcases Nat.lt_trichotomy j n with lt | rfl | gt
    · rw [frame n (by omega) _ j (by omega), before, if_pos lt, if_pos (by omega)]
    · rw [hit j (by omega), before, if_neg (by omega), if_pos (by omega)]
    · rw [frame n (by omega) _ j (by omega), before, if_neg (by omega), if_neg (by omega)]

/-- What no round changes, the loop does not change. -/
theorem forRange_keep (get : σ → γ) (keep : ∀ i, i < n → ∀ s, get (body i s).val = get s)
    (s : σ) : get (forRange n body s).val = get s :=
  forRange_val (fun _ t => get t = get s) (fun i hi t ht => (keep i hi t).trans ht) s rfl

end Loops

end Checked

end CofferLed.Library
