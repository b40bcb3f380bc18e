import Mathlib.Tactic.Common

/-! A ring buffer with one slot kept free, as a bounded queue.

`head` is where the next element goes and `tail` where the next one is taken from;
equal indices mean empty, so a ring of `size` slots holds at most `size - 1`
elements and `push` drops what comes when it is full. `contents` reads a ring as
the list of the elements in it; against that list `push` appends (`contents_push`),
or drops at exactly `size - 1` elements, and `pop` takes the first
(`contents_pop`). -/
namespace CofferLed.Library

structure Ring (α : Type) (size : Nat) where
  buffer : Vector α size
  head : Fin size
  tail : Fin size

namespace Ring
variable {α : Type} {size : Nat}

def empty [Inhabited α] (h : 0 < size) : Ring α size :=
  ⟨Vector.replicate size default, ⟨0, h⟩, ⟨0, h⟩⟩

/-- The index after `i`. -/
def after (i : Fin size) : Fin size := ⟨(i.val + 1) % size, Nat.mod_lt _ i.pos⟩

def available (r : Ring α size) : Nat := (size + r.head.val - r.tail.val) % size

def push (r : Ring α size) (x : α) : Ring α size :=
  if after r.head = r.tail then r else ⟨r.buffer.set r.head.val x, after r.head, r.tail⟩

/-- The oldest element, if there is one, and the ring without it. -/
def pop (r : Ring α size) : Option α × Ring α size :=
  if r.head = r.tail then (none, r) else (some r.buffer[r.tail.val], {r with tail := after r.tail})

/-- The slot of the `k`-th oldest element. -/
def slot (r : Ring α size) (k : Nat) : Fin size := ⟨(r.tail.val + k) % size, Nat.mod_lt _ r.tail.pos⟩

def contents (r : Ring α size) : List α :=
  (List.range r.available).map fun k => r.buffer[(r.slot k).val]

/-! ### Index arithmetic -/

theorem after_val (i : Fin size) : (after i).val = if i.val + 1 = size then 0 else i.val + 1 := by
  have := i.isLt
  unfold after
  split
  case isTrue h => simp [h]
  case isFalse h => exact Nat.mod_eq_of_lt (by omega)

theorem available_eq (r : Ring α size) :
    r.available =
      if r.tail.val ≤ r.head.val then r.head.val - r.tail.val
      else size + r.head.val - r.tail.val := by
  have hh := r.head.isLt
  have ht := r.tail.isLt
  unfold available
  split
  case isTrue h =>
    rw [Nat.mod_eq_sub_mod (by omega), Nat.mod_eq_of_lt (by omega)]
    omega
  case isFalse h => exact Nat.mod_eq_of_lt (by omega)

theorem slot_val (r : Ring α size) (k : Nat) (h : k < size) :
    (r.slot k).val = if r.tail.val + k < size then r.tail.val + k else r.tail.val + k - size := by
  have ht := r.tail.isLt
  unfold slot
  split
  case isTrue lt => exact Nat.mod_eq_of_lt lt
  case isFalse ge =>
    show (r.tail.val + k) % size = _
    rw [Nat.mod_eq_sub_mod (by omega), Nat.mod_eq_of_lt (by omega)]

theorem available_lt (r : Ring α size) : r.available < size := Nat.mod_lt _ r.head.pos

theorem available_eq_zero (r : Ring α size) : r.available = 0 ↔ r.head = r.tail := by
  have hh := r.head.isLt
  have ht := r.tail.isLt
  rw [available_eq, Fin.ext_iff]
  split <;> omega

theorem full_iff (r : Ring α size) : after r.head = r.tail ↔ r.available = size - 1 := by
  have hh := r.head.isLt
  have ht := r.tail.isLt
  rw [available_eq, Fin.ext_iff, after_val]
  split <;> split <;> omega

@[simp] theorem contents_length (r : Ring α size) : r.contents.length = r.available := by
  simp [contents]

theorem contents_eq_nil (r : Ring α size) : r.contents = [] ↔ r.available = 0 := by
  rw [← List.length_eq_zero_iff, contents_length]

theorem contents_drained (r : Ring α size) (h : r.head = r.tail) : r.contents = [] :=
  (contents_eq_nil r).mpr ((available_eq_zero r).mpr h)

@[simp] theorem contents_empty [Inhabited α] (h : 0 < size) :
    (empty h : Ring α size).contents = [] := by
  rw [contents_eq_nil, available_eq_zero]
  rfl

/-! ### The two operations on the contents -/

theorem push_full (r : Ring α size) (x : α) (h : r.available = size - 1) : r.push x = r :=
  if_pos ((full_iff r).mpr h)

theorem contents_push (r : Ring α size) (x : α) (h : r.available < size - 1) :
    (r.push x).contents = r.contents ++ [x] := by
  have hh := r.head.isLt
  have ht := r.tail.isLt
  have room : after r.head ≠ r.tail := fun full => by
    have := (full_iff r).mp full
    omega
  have count := available_eq r
  have grown : (r.push x).available = r.available + 1 := by
    rw [push, if_neg room, available_eq, count]
    rw [Ne, Fin.ext_iff, after_val] at room
    simp only [after_val]
    split at room <;> split <;> split <;> split <;> omega
  have slots : ∀ k, (r.push x).slot k = r.slot k := fun k => by
    rw [push, if_neg room]
    rfl
  have last : (r.slot r.available).val = r.head.val := by
    rw [slot_val r _ (available_lt r), count]
    split <;> split <;> omega
  have buffer : (r.push x).buffer = r.buffer.set r.head.val x := by rw [push, if_neg room]
  rw [contents, grown, List.range_succ, List.map_append, contents]
  congr 1
  · apply List.map_congr_left
    intro k hk
    rw [List.mem_range] at hk
    have apart : r.head.val ≠ (r.slot k).val := by
      rw [slot_val r k (by omega)]
      split at count <;> split <;> omega
    simp only [slots, buffer, Vector.getElem_set, if_neg apart]
  · simp only [List.map_cons, List.map_nil, slots, buffer, Vector.getElem_set, last, if_pos]

theorem contents_pop (r : Ring α size) (h : r.available ≠ 0) :
    ∃ x, r.pop.1 = some x ∧ r.contents = x :: r.pop.2.contents := by
  have hh := r.head.isLt
  have ht := r.tail.isLt
  have some_left : r.head ≠ r.tail := fun he => h ((available_eq_zero r).mpr he)
  have count := available_eq r
  have rest : r.pop.2 = {r with tail := after r.tail} := by rw [pop, if_neg some_left]
  have shrunk : r.available = r.pop.2.available + 1 := by
    have left := available_eq r.pop.2
    have differ : r.head.val ≠ r.tail.val := fun he => some_left (Fin.ext he)
    simp only [rest, after_val] at left ⊢
    rw [left, count]
    split <;> split <;> split <;> omega
  refine ⟨r.buffer[r.tail.val], by rw [pop, if_neg some_left], ?_⟩
  rw [contents, shrunk, List.range_succ_eq_map, List.map_cons, List.map_map, contents]
  congr 1
  · have first : (r.slot 0).val = r.tail.val := Nat.mod_eq_of_lt ht
    simp only [first]
  · apply List.map_congr_left
    intro k hk
    rw [List.mem_range] at hk
    have lt := available_lt r
    have shift : (r.slot (k + 1)).val = (r.pop.2.slot k).val := by
      rw [slot_val r (k + 1) (by omega), slot_val r.pop.2 k (by omega), rest]
      simp only [after_val]
      split <;> split <;> split <;> omega
    have kept : r.pop.2.buffer = r.buffer := by rw [rest]
    simp only [Function.comp_apply, shift, kept]

/-! ### `push` in two steps: the element, then the index -/

def store (r : Ring α size) (x : α) : Ring α size := {r with buffer := r.buffer.set r.head.val x}

def advance (r : Ring α size) : Ring α size := {r with head := after r.head}

theorem after_inj {i j : Fin size} (h : after i = after j) : i = j := by
  have hi := i.isLt
  have hj := j.isLt
  rw [Fin.ext_iff, after_val, after_val] at h
  rw [Fin.ext_iff]
  split at h <;> split at h <;> omega

theorem ne_after (i : Fin size) (more : 1 < size) : i ≠ after i := by
  have hi := i.isLt
  rw [Ne, Fin.ext_iff, after_val]
  split <;> omega

/-- The slot that is written to is none of those that are read. -/
theorem contents_store (r : Ring α size) (x : α) : (r.store x).contents = r.contents := by
  have hh := r.head.isLt
  have ht := r.tail.isLt
  have count := available_eq r
  apply List.map_congr_left
  intro k hk
  have inside : k < r.available := List.mem_range.mp hk
  have lt := available_lt r
  have apart : r.head.val ≠ (r.slot k).val := by
    rw [slot_val r k (by omega)]
    split at count <;> split <;> omega
  exact Vector.getElem_set_ne hh (r.slot k).isLt apart

theorem contents_advance (r : Ring α size) (room : after r.head ≠ r.tail) :
    r.advance.contents = r.contents ++ [r.buffer[r.head.val]] := by
  have lt := available_lt r
  have same : r.push r.buffer[r.head.val] = r.advance := by
    rw [push, if_neg room, Vector.set_getElem_self]
    rfl
  rw [← same]
  apply contents_push
  have := mt (full_iff r).mpr room
  omega

/-- Taking the oldest element without asking whether there is one. -/
theorem contents_cons (r : Ring α size) (h : r.head ≠ r.tail) :
    r.contents = r.buffer[r.tail.val] :: ({r with tail := after r.tail} : Ring α size).contents := by
  obtain ⟨x, taken, rest⟩ := contents_pop r fun none => h ((available_eq_zero r).mp none)
  rw [pop, if_neg h, Option.some.injEq] at taken
  rw [rest, taken, pop, if_neg h]

end Ring

end CofferLed.Library
