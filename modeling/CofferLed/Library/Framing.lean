import CofferLed.Library.Runs

/-! Fixed-length frames behind a header symbol.

A frame is a header, which carries a mode, and `length` data symbols; a symbol is a
header or data, never both. The receiver here keeps the mode of the last header and
the data since then, starts over at every header, and hands a frame over when it has
`length` data symbols. It is the receiver that forgets, after a frame, whether a
header has come since.

On a channel that delivers every header and keeps, loses or turns into a header each
data symbol, the receiver hands over exactly the frames no symbol of which was touched
(`damaged_stream`). What it hands over on an arbitrary stream is the subject of
`CofferLed.Library.FramePlaces`. -/
namespace CofferLed.Library

structure Format (α μ : Type) where
  /-- The mode of a header symbol; nothing for a data symbol. -/
  header : α → Option μ
  length : Nat
  positive : 0 < length

structure Frame (α μ : Type) where
  mode : μ
  data : List α

namespace Framing
variable {α μ : Type} (F : Format α μ)

structure State (α μ : Type) where
  mode : μ
  received : List α

def feed (a : α) (s : State α μ) : State α μ :=
  match F.header a with
  | some m => ⟨m, []⟩
  | none =>
    if s.received.length + 1 < F.length then ⟨s.mode, s.received ++ [a]⟩ else ⟨s.mode, []⟩

def emitted (a : α) (s : State α μ) : List (Frame α μ) :=
  match F.header a with
  | some _ => []
  | none =>
    if s.received.length + 1 < F.length then [] else [⟨s.mode, s.received ++ [a]⟩]

/-- The state after a stream, and the frames handed over on the way. -/
def fed (s : State α μ) (xs : List α) : State α μ := run (feed F) s xs
def frames (s : State α μ) (xs : List α) : List (Frame α μ) := trace (feed F) (emitted F) s xs

/-- No headers. -/
def Free (xs : List α) : Prop := ∀ a ∈ xs, F.header a = none

@[simp] theorem fed_nil (s : State α μ) : fed F s [] = s := rfl
@[simp] theorem frames_nil (s : State α μ) : frames F s [] = [] := rfl

theorem fed_cons (s : State α μ) (a : α) (xs : List α) :
    fed F s (a :: xs) = fed F (feed F a s) xs := rfl

theorem frames_cons (s : State α μ) (a : α) (xs : List α) :
    frames F s (a :: xs) = emitted F a s ++ frames F (feed F a s) xs := rfl

theorem fed_append (s : State α μ) (xs ys : List α) :
    fed F s (xs ++ ys) = fed F (fed F s xs) ys := run_append _ _ _ _

theorem frames_append (s : State α μ) (xs ys : List α) :
    frames F s (xs ++ ys) = frames F s xs ++ frames F (fed F s xs) ys := trace_append _ _ _ _ _

variable {F}

/-! ### One symbol -/

theorem feed_header {a : α} {m : μ} (h : F.header a = some m) (s : State α μ) :
    feed F a s = ⟨m, []⟩ := by
  simp only [feed, h]

theorem emitted_header {a : α} {m : μ} (h : F.header a = some m) (s : State α μ) :
    emitted F a s = [] := by
  simp only [emitted, h]

theorem feed_data {a : α} (h : F.header a = none) (s : State α μ)
    (short : s.received.length + 1 < F.length) :
    feed F a s = ⟨s.mode, s.received ++ [a]⟩ := by
  simp only [feed, h, if_pos short]

theorem emitted_data {a : α} (h : F.header a = none) (s : State α μ)
    (short : s.received.length + 1 < F.length) : emitted F a s = [] := by
  simp only [emitted, h, if_pos short]

theorem feed_last {a : α} (h : F.header a = none) (s : State α μ)
    (full : F.length ≤ s.received.length + 1) : feed F a s = ⟨s.mode, []⟩ := by
  simp only [feed, h, if_neg (Nat.not_lt.mpr full)]

theorem emitted_last {a : α} (h : F.header a = none) (s : State α μ)
    (full : F.length ≤ s.received.length + 1) :
    emitted F a s = [⟨s.mode, s.received ++ [a]⟩] := by
  simp only [emitted, h, if_neg (Nat.not_lt.mpr full)]

/-- A symbol adds at most one to what is held. -/
theorem feed_received_le (a : α) (s : State α μ) :
    (feed F a s).received.length ≤ s.received.length + 1 := by
  unfold feed
  split
  · simp
  · split <;> simp

/-! ### A stretch of the stream -/

/-- Too few symbols to complete a frame hand nothing over, whatever they are. -/
theorem frames_short (xs : List α) (s : State α μ)
    (h : s.received.length + xs.length < F.length) : frames F s xs = [] := by
  induction xs generalizing s with
  | nil => rfl
  | cons a rest ih =>
    rw [List.length_cons] at h
    have grown := feed_received_le (F := F) a s
    have none_now : emitted F a s = [] := by
      cases ha : F.header a with
      | some m => exact emitted_header ha s
      | none => exact emitted_data ha s (by omega)
    rw [frames_cons, none_now, List.nil_append]
    exact ih _ (by omega)

/-- Data that completes a frame hands it over, once, at the last symbol. -/
theorem frames_data (xs : List α) (s : State α μ) (free : Free F xs)
    (h : s.received.length + xs.length = F.length) (hs : s.received.length < F.length) :
    frames F s xs = [⟨s.mode, s.received ++ xs⟩] ∧ fed F s xs = ⟨s.mode, []⟩ := by
  induction xs generalizing s with
  | nil =>
    simp only [List.length_nil, Nat.add_zero] at h
    omega
  | cons a rest ih =>
    have ha := free a (List.mem_cons_self ..)
    rw [List.length_cons] at h
    rw [frames_cons, fed_cons]
    by_cases last : rest = []
    · subst last
      rw [List.length_nil] at h
      rw [emitted_last ha s (by omega), feed_last ha s (by omega)]
      exact ⟨rfl, rfl⟩
    · have : 0 < rest.length := List.length_pos_iff.mpr last
      rw [emitted_data ha s (by omega), feed_data ha s (by omega)]
      have held : (State.mk s.mode (s.received ++ [a])).received.length =
          s.received.length + 1 := by simp
      obtain ⟨out, done⟩ := ih ⟨s.mode, s.received ++ [a]⟩
        (fun b hb => free b (List.mem_cons_of_mem a hb)) (by omega) (by omega)
      refine ⟨?_, done⟩
      rw [List.nil_append, out, List.append_assoc, List.singleton_append]

/-! ### A channel that damages data -/

/-- What becomes of one data symbol. -/
inductive Damage (α : Type) where
  | intact
  | lost
  | replaced (a : α)

def Damage.arrives (d : Damage α) (a : α) : List α :=
  match d with
  | .intact => [a]
  | .lost => []
  | .replaced b => [b]

/-- A frame on its way: each data symbol with what becomes of it. -/
structure Sent (F : Format α μ) where
  header : α
  mode : μ
  carries : F.header header = some mode
  data : List (α × Damage α)
  length : data.length = F.length
  free : ∀ p ∈ data, F.header p.1 = none
  /-- A symbol that does not arrive as itself arrives as a header, or not at all. -/
  noise : ∀ p ∈ data, ∀ b, p.2 = .replaced b → F.header b ≠ none

def arrivals (data : List (α × Damage α)) : List α := data.flatMap fun p => p.2.arrives p.1

def Intact (data : List (α × Damage α)) : Prop := ∀ p ∈ data, p.2 = .intact

def Sent.wire (m : Sent F) : List α := m.header :: arrivals m.data

def Sent.frame (m : Sent F) : Frame α μ := ⟨m.mode, m.data.map Prod.fst⟩

theorem arrivals_cons (p : α × Damage α) (rest : List (α × Damage α)) :
    arrivals (p :: rest) = p.2.arrives p.1 ++ arrivals rest := rfl

theorem arrivals_intact (data : List (α × Damage α)) (h : Intact data) :
    arrivals data = data.map Prod.fst := by
  induction data with
  | nil => rfl
  | cons p rest ih =>
    have hp := h p (List.mem_cons_self ..)
    rw [arrivals_cons, hp, ih fun q hq => h q (List.mem_cons_of_mem p hq)]
    rfl

theorem arrivals_length (data : List (α × Damage α)) : (arrivals data).length ≤ data.length := by
  induction data with
  | nil => exact Nat.le_refl 0
  | cons p rest ih =>
    have one : (p.2.arrives p.1).length ≤ 1 := by cases p.2 <;> simp [Damage.arrives]
    rw [arrivals_cons, List.length_append, List.length_cons]
    omega

/-- Where a symbol is touched no frame is completed: up to the first loss or new header
too little has been received, and after it too little is left. -/
theorem frames_damaged (data : List (α × Damage α)) (s : State α μ)
    (free : ∀ p ∈ data, F.header p.1 = none)
    (noise : ∀ p ∈ data, ∀ b, p.2 = .replaced b → F.header b ≠ none)
    (touched : ¬ Intact data) (h : s.received.length + data.length ≤ F.length) :
    frames F s (arrivals data) = [] := by
  induction data generalizing s with
  | nil => exact absurd (fun p hp => by cases hp) touched
  | cons p rest ih =>
    obtain ⟨a, d⟩ := p
    have left := arrivals_length rest
    rw [List.length_cons] at h
    rw [arrivals_cons]
    cases d with
    | intact =>
      have later : ¬ Intact rest := fun clean => touched fun q hq => by
        rcases List.mem_cons.mp hq with rfl | hq
        · rfl
        · exact clean q hq
      have : 0 < rest.length := List.length_pos_iff.mpr fun he =>
        later (he ▸ fun q hq => by cases hq)
      have ha := free (a, .intact) (List.mem_cons_self ..)
      show frames F s (a :: arrivals rest) = []
      rw [frames_cons, emitted_data ha s (by omega), feed_data ha s (by omega), List.nil_append]
      refine ih ⟨s.mode, s.received ++ [a]⟩ (fun q hq => free q (List.mem_cons_of_mem _ hq))
        (fun q hq => noise q (List.mem_cons_of_mem _ hq)) later ?_
      simp only [List.length_append, List.length_singleton]
      omega
    | lost => exact frames_short (arrivals rest) s (by omega)
    | replaced b =>
      have hb := noise (a, .replaced b) (List.mem_cons_self ..) b rfl
      obtain ⟨m, hm⟩ := Option.ne_none_iff_exists'.mp hb
      show frames F s (b :: arrivals rest) = []
      rw [frames_cons, emitted_header hm, feed_header hm, List.nil_append]
      exact frames_short (arrivals rest) ⟨m, []⟩ (by show 0 + _ < _; omega)

open Classical in
/-- What one sent frame hands over: itself if no symbol was touched, and else nothing. -/
theorem frames_sent (m : Sent F) (s : State α μ) :
    frames F s m.wire = if Intact m.data then [m.frame] else [] := by
  rw [Sent.wire, frames_cons, emitted_header m.carries, feed_header m.carries, List.nil_append]
  split
  case isTrue clean =>
    rw [arrivals_intact m.data clean]
    have free : Free F (m.data.map Prod.fst) := fun a ha => by
      obtain ⟨p, hp, rfl⟩ := List.mem_map.mp ha
      exact m.free p hp
    exact (frames_data _ ⟨m.mode, []⟩ free (by simp [m.length]) F.positive).1
  case isFalse touched =>
    exact frames_damaged m.data ⟨m.mode, []⟩ m.free m.noise touched (by simp [m.length])

open Classical in
/-- **Error containment.** From any state, the frames handed over on a damaged stream are
the untouched ones, in order, each once. -/
theorem damaged_stream (ms : List (Sent F)) (s : State α μ) :
    frames F s (ms.flatMap Sent.wire) =
      (ms.filter fun m => decide (Intact m.data)).map Sent.frame := by
  induction ms generalizing s with
  | nil => rfl
  | cons m rest ih =>
    rw [List.flatMap_cons, frames_append, frames_sent, ih, List.filter_cons]
    by_cases clean : Intact m.data <;> simp [clean]

/-! ### A stream that breaks off -/

/-- Data too short for a frame is kept. -/
theorem fed_short (xs : List α) (s : State α μ) (free : Free F xs)
    (h : s.received.length + xs.length < F.length) :
    fed F s xs = ⟨s.mode, s.received ++ xs⟩ := by
  induction xs generalizing s with
  | nil => rw [fed_nil, List.append_nil]
  | cons a rest ih =>
    have ha := free a (List.mem_cons_self ..)
    rw [List.length_cons] at h
    rw [fed_cons, feed_data ha s (by omega), ih _ fun b hb => free b (List.mem_cons_of_mem a hb)]
    · rw [List.append_assoc, List.singleton_append]
    · rw [List.length_append, List.length_singleton]
      omega

theorem Sent.free_data (m : Sent F) : Free F (m.data.map Prod.fst) := fun a ha => by
  obtain ⟨p, hp, rfl⟩ := List.mem_map.mp ha
  exact m.free p hp

/-- Of a frame that arrives whole nothing is kept. -/
theorem fed_sent (m : Sent F) (clean : Intact m.data) (s : State α μ) :
    fed F s m.wire = ⟨m.mode, []⟩ := by
  rw [Sent.wire, arrivals_intact m.data clean, fed_cons, feed_header m.carries]
  exact (frames_data _ ⟨m.mode, []⟩ m.free_data (by simp [m.length]) F.positive).2

/-- A frame that breaks off is not handed over, and all of it behind the header is kept. -/
theorem frames_cut (m : Sent F) (clean : Intact m.data) (a : α) (ys : List α) (s : State α μ)
    (part : a :: ys <+: m.wire) (short : ys.length < F.length) :
    a = m.header ∧ frames F s (a :: ys) = [] ∧ (fed F s (a :: ys)).received = ys := by
  rw [Sent.wire, arrivals_intact m.data clean, List.cons_prefix_cons] at part
  obtain ⟨rfl, inside⟩ := part
  have free : Free F ys := fun b hb => m.free_data b (inside.subset hb)
  have room : (State.mk m.mode ([] : List α)).received.length + ys.length < F.length := by
    rwa [List.length_nil, Nat.zero_add]
  rw [frames_cons, fed_cons, emitted_header m.carries, feed_header m.carries, List.nil_append,
    frames_short ys _ room, fed_short ys _ free room]
  exact ⟨rfl, rfl, rfl⟩

/-- **Cut off.** Wherever a stream of whole frames breaks off, those before are handed over,
and what is kept is all that came since the header of the next one. -/
theorem cut_stream (ms : List (Sent F)) (clean : ∀ m ∈ ms, Intact m.data) (xs : List α)
    (s : State α μ) (part : xs <+: ms.flatMap Sent.wire) :
    ∃ k before, frames F s xs = (ms.take k).map Sent.frame ∧
      before.length = k * (F.length + 1) ∧ k ≤ ms.length ∧
      (xs = before ∨ ∃ a, F.header a ≠ none ∧ xs = before ++ a :: (fed F s xs).received ∧
        (fed F s xs).received.length < F.length) := by
  induction ms generalizing s xs with
  | nil =>
    obtain rfl : xs = [] := List.prefix_nil.mp part
    exact ⟨0, [], rfl, (Nat.zero_mul _).symm, Nat.le_refl 0, .inl rfl⟩
  | cons m rest ih =>
    have here := clean m (List.mem_cons_self ..)
    have long : m.wire.length = F.length + 1 := by
      rw [Sent.wire, arrivals_intact m.data here, List.length_cons, List.length_map, m.length]
    rw [List.flatMap_cons] at part
    by_cases whole : F.length + 1 ≤ xs.length
    · obtain ⟨ys, rfl⟩ := List.prefix_of_prefix_length_le (List.prefix_append _ _) part
        (long ▸ whole)
      have out := (frames_sent m s).trans (if_pos here)
      have kept := fed_sent m here s
      obtain ⟨k, before, frames_ys, length_before, le, cut⟩ := ih
        (fun m hm => clean m (List.mem_cons_of_mem _ hm)) ys ⟨m.mode, []⟩
        ((List.prefix_append_right_inj _).mp part)
      refine ⟨k + 1, m.wire ++ before, ?_, ?_, Nat.succ_le_succ le, ?_⟩
      · rw [frames_append, out, kept, frames_ys, List.take_succ_cons, List.map_cons,
          List.singleton_append]
      · rw [List.length_append, long, length_before, Nat.succ_mul, Nat.add_comm]
      · rw [fed_append, kept]
        rcases cut with same | ⟨a, header, split, short⟩
        · exact .inl (by rw [same])
        · refine .inr ⟨a, header, ?_, short⟩
          rw [List.append_assoc, ← split]
    · cases xs with
      | nil => exact ⟨0, [], rfl, (Nat.zero_mul _).symm, Nat.zero_le _, .inl rfl⟩
      | cons a ys =>
        have short : ys.length < F.length := by
          rw [List.length_cons] at whole
          omega
        have inside : a :: ys <+: m.wire := by
          refine List.prefix_of_prefix_length_le part (List.prefix_append _ _) ?_
          rw [long]
          exact Nat.succ_le_succ (Nat.le_of_lt short)
        obtain ⟨rfl, nothing, kept⟩ := frames_cut m here a ys s inside short
        have header : F.header m.header ≠ none := by
          rw [m.carries]
          exact nofun
        refine ⟨0, [], nothing, (Nat.zero_mul _).symm, Nat.zero_le _, .inr ⟨_, header, ?_, ?_⟩⟩
        · rw [kept, List.nil_append]
        · rwa [kept]

end Framing

end CofferLed.Library
