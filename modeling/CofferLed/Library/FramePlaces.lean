import CofferLed.Library.Framing
import Mathlib.Data.List.Forall2
import Mathlib.Data.List.Perm.Subperm

/-! Which frames of an arbitrary stream a receiver of fixed-length frames hands over.

A frame stands in a stream where its header is followed by its data. The receiver of
`CofferLed.Library.Framing` hands over every frame that stands in the stream
(`standing_sublist`), but it goes on counting after a frame and before the first
header: what it hands over are frames of the stream, each from a place of its own,
exactly when the stream does not begin with a frame's length of data and nowhere has
twice that length of data in a row (`sound_iff`). -/
namespace CofferLed.Library.Framing
variable {α μ : Type} {F : Format α μ}

variable (F) in
/-- `f` stands in the stream at position `k`: its header, and right behind it its data. -/
structure FrameAt (xs : List α) (k : Nat) (f : Frame α μ) : Prop where
  header : ∃ a, xs[k]? = some a ∧ F.header a = some f.mode
  data : (xs.drop (k + 1)).take F.length = f.data
  whole : f.data.length = F.length
  free : Free F f.data

variable (F) in
/-- Every frame stands in the stream, and no two in the same place. -/
def Sound (xs : List α) (fs : List (Frame α μ)) : Prop :=
  ∃ places : List Nat, places.Nodup ∧ List.Forall₂ (FrameAt F xs) places fs

theorem free_cons {a : α} {xs : List α} : Free F (a :: xs) ↔ F.header a = none ∧ Free F xs :=
  List.forall_mem_cons

variable (F) in
/-- How many data symbols the stream begins with. -/
def gap (xs : List α) : Nat := (xs.takeWhile fun a => (F.header a).isNone).length

theorem gap_header {a : α} {m : μ} (h : F.header a = some m) (xs : List α) :
    gap F (a :: xs) = 0 := by
  simp [gap, h]

theorem gap_data {a : α} (h : F.header a = none) (xs : List α) :
    gap F (a :: xs) = gap F xs + 1 := by
  simp [gap, h]

theorem le_gap_iff (n : Nat) (xs : List α) :
    n ≤ gap F xs ↔ (xs.take n).length = n ∧ Free F (xs.take n) := by
  induction xs generalizing n with
  | nil => simp [gap, Free, eq_comm]
  | cons a rest ih =>
    cases n with
    | zero => simp [Free]
    | succ n =>
      cases ha : F.header a with
      | some m =>
        rw [gap_header ha]
        refine ⟨fun h => absurd h (by omega), fun h => ?_⟩
        rw [List.take_succ_cons, free_cons, ha] at h
        cases h.2.1
      | none =>
        rw [gap_data ha, Nat.add_le_add_iff_right, ih]
        simp [Free, ha]

variable (F) in
/-- The frames that stand in a stream whose first position is `k`, with their places. -/
def standing (k : Nat) : List α → List (Nat × Frame α μ)
  | [] => []
  | a :: rest =>
    match F.header a with
    | some m =>
      if F.length ≤ gap F rest then (k, ⟨m, rest.take F.length⟩) :: standing (k + 1) rest
      else standing (k + 1) rest
    | none => standing (k + 1) rest

theorem frameAt_zero (a : α) (rest : List α) (f : Frame α μ) :
    FrameAt F (a :: rest) 0 f ↔
      F.header a = some f.mode ∧ F.length ≤ gap F rest ∧ rest.take F.length = f.data := by
  constructor
  · rintro ⟨⟨b, hb, hm⟩, data, whole, free⟩
    have here : a = b := by simpa using hb
    subst here
    have cut : rest.take F.length = f.data := by simpa using data
    exact ⟨hm, (le_gap_iff _ _).mpr (by rw [cut]; exact ⟨whole, free⟩), cut⟩
  · rintro ⟨hm, room, cut⟩
    obtain ⟨whole, free⟩ := (le_gap_iff _ _).mp room
    rw [cut] at whole free
    exact ⟨⟨a, by simp, hm⟩, by simpa using cut, whole, free⟩

theorem frameAt_succ (a : α) (rest : List α) (k : Nat) (f : Frame α μ) :
    FrameAt F (a :: rest) (k + 1) f ↔ FrameAt F rest k f := by
  constructor <;> rintro ⟨header, data, whole, free⟩
  · exact ⟨by simpa using header, by simpa using data, whole, free⟩
  · exact ⟨by simpa using header, by simpa using data, whole, free⟩

theorem mem_standing (xs : List α) (k : Nat) (p : Nat × Frame α μ) :
    p ∈ standing F k xs ↔ ∃ i, p.1 = k + i ∧ FrameAt F xs i p.2 := by
  induction xs generalizing k with
  | nil =>
    refine ⟨fun h => absurd h List.not_mem_nil, fun ⟨i, _, hf⟩ => ?_⟩
    obtain ⟨a, ha, _⟩ := hf.header
    simp at ha
  | cons a rest ih =>
    have later : p ∈ standing F (k + 1) rest ↔
        ∃ i, p.1 = k + (i + 1) ∧ FrameAt F (a :: rest) (i + 1) p.2 := by
      simp only [ih, frameAt_succ, Nat.add_assoc, Nat.add_comm 1]
    have split_place : (∃ i, p.1 = k + i ∧ FrameAt F (a :: rest) i p.2) ↔
        (p.1 = k ∧ FrameAt F (a :: rest) 0 p.2) ∨ p ∈ standing F (k + 1) rest := by
      rw [later]
      constructor
      · rintro ⟨_ | i, hp, hf⟩
        · exact .inl ⟨hp, hf⟩
        · exact .inr ⟨i, hp, hf⟩
      · rintro (⟨hp, hf⟩ | ⟨i, hp, hf⟩)
        · exact ⟨0, hp, hf⟩
        · exact ⟨i + 1, hp, hf⟩
    rw [split_place, frameAt_zero, standing]
    cases ha : F.header a with
    | none => simp
    | some m =>
      by_cases room : F.length ≤ gap F rest
      · obtain ⟨place, mode, data⟩ := p
        simp [room, Prod.ext_iff, Frame.mk.injEq, eq_comm]
      · simp [room]

/-- Places in a stream are listed once, in order. -/
theorem standing_nodup (xs : List α) (k : Nat) : ((standing F k xs).map Prod.fst).Nodup := by
  induction xs generalizing k with
  | nil => exact List.nodup_nil
  | cons a rest ih =>
    have later : k ∉ (standing F (k + 1) rest).map Prod.fst := fun h => by
      obtain ⟨p, hp, rfl⟩ := List.mem_map.mp h
      obtain ⟨i, hi, _⟩ := (mem_standing rest _ p).mp hp
      omega
    rw [standing]
    split
    · split
      · exact List.nodup_cons.mpr ⟨later, ih _⟩
      · exact ih _
    · exact ih _

/-- Frames that stand in the stream in different places are no more than there are. -/
theorem Sound.length_le {xs : List α} {fs : List (Frame α μ)} (h : Sound F xs fs) :
    fs.length ≤ (standing F 0 xs).length := by
  obtain ⟨places, once, stand⟩ := h
  have subset : places ⊆ (standing F 0 xs).map Prod.fst := fun k hk => by
    obtain ⟨i, hi, rfl⟩ := List.getElem_of_mem hk
    have hf := (List.forall₂_iff_get.mp stand).2 i hi (stand.length_eq ▸ hi)
    exact List.mem_map.mpr ⟨(_, _), (mem_standing xs 0 _).mpr ⟨_, (Nat.zero_add _).symm, hf⟩, rfl⟩
  have := (once.subperm subset).length_le
  rwa [stand.length_eq, List.length_map] at this

/-- What is sound so far stays so when more is handed over. -/
theorem Sound.of_append {xs : List α} {fs gs : List (Frame α μ)} (h : Sound F xs (fs ++ gs)) :
    Sound F xs fs := by
  obtain ⟨places, once, stand⟩ := h
  exact ⟨places.take fs.length, once.sublist (List.take_sublist _ _),
    List.forall₂_take_append _ _ _ stand⟩

theorem standing_sound (xs : List α) : Sound F xs ((standing F 0 xs).map Prod.snd) := by
  refine ⟨(standing F 0 xs).map Prod.fst, standing_nodup xs 0, ?_⟩
  rw [List.forall₂_map_left_iff, List.forall₂_map_right_iff, List.forall₂_same]
  intro p hp
  obtain ⟨i, hi, hf⟩ := (mem_standing xs 0 p).mp hp
  rw [hi, Nat.zero_add]
  exact hf

/-! ### Before the first header and after a frame

The receiver cannot tell the start of the stream from the end of a frame: in both it has
seen `F.length` data symbols too many to complete a frame of the stream. `Age` counts the
data symbols since the last header that way. -/

variable (F) in
/-- The age of a state: the data symbols since the last header, as far as the state and
the length of a frame determine it. -/
structure Age (age : Nat) (s : State α μ) : Prop where
  lt : age < 2 * F.length
  received : s.received.length = if age < F.length then age else age - F.length

variable (F) in
/-- No stretch of data gets as old as two frames. -/
def Spaced (age : Nat) : List α → Prop
  | [] => True
  | a :: rest =>
    match F.header a with
    | some _ => Spaced 0 rest
    | none => age + 1 < 2 * F.length ∧ Spaced (age + 1) rest

variable (F) in
/-- The frame in progress, if its header has been seen and its data is still to come. -/
def current (age : Nat) (s : State α μ) (xs : List α) : List (Frame α μ) :=
  if age < F.length ∧ F.length ≤ age + gap F xs then
    [⟨s.mode, s.received ++ xs.take (F.length - age)⟩]
  else []

theorem current_stale {age : Nat} (h : F.length ≤ age) (s : State α μ) (xs : List α) :
    current F age s xs = [] := if_neg (by omega)

/-- The last symbol of a frame that stands in the stream. -/
theorem current_last {a : α} (ha : F.header a = none) {age : Nat} (last : age + 1 = F.length)
    (s : State α μ) (rest : List α) :
    current F age s (a :: rest) = [⟨s.mode, s.received ++ [a]⟩] := by
  have one : F.length - age = 1 := by omega
  rw [current, if_pos ⟨by omega, by rw [gap_data ha]; omega⟩, one]
  simp

/-- An earlier one moves from the stream to the state. -/
theorem current_data {a : α} (ha : F.header a = none) {age : Nat} (more : age + 1 ≠ F.length)
    (s : State α μ) (rest : List α) :
    current F (age + 1) ⟨s.mode, s.received ++ [a]⟩ rest = current F age s (a :: rest) := by
  by_cases fresh : age < F.length
  · have step : F.length - age = (F.length - (age + 1)) + 1 := by omega
    have gap_step : F.length ≤ age + 1 + gap F rest ↔ F.length ≤ age + (gap F rest + 1) := by omega
    simp only [current, gap_data ha, gap_step, step, List.take_succ_cons, List.append_assoc,
      List.singleton_append]
    simp [fresh, show age + 1 < F.length by omega]
  · rw [current_stale (by omega), current_stale (by omega)]

theorem Age.older {age : Nat} {s : State α μ} (h : Age F age s)
    (short : s.received.length + 1 < F.length) (a : α) :
    age + 1 ≠ F.length ∧ Age F (age + 1) (⟨s.mode, s.received ++ [a]⟩ : State α μ) := by
  obtain ⟨lt, received⟩ := h
  refine ⟨?_, ?_, ?_⟩
  · split at received <;> omega
  · split at received <;> omega
  · simp only [List.length_append, List.length_singleton]
    split at received <;> split <;> omega

/-- The frames that stand in the stream are handed over, in order; the others are too
many exactly when some stretch of data is too long. -/
theorem standing_sublist (xs : List α) (age k : Nat) (s : State α μ) (h : Age F age s) :
    (current F age s xs ++ (standing F k xs).map Prod.snd).Sublist (frames F s xs) ∧
      ((frames F s xs).length = (current F age s xs ++ (standing F k xs).map Prod.snd).length ↔
        Spaced F age xs) := by
  induction xs generalizing age k s with
  | nil =>
    have none_yet : current F age s [] = [] :=
      if_neg (by simp only [gap, List.takeWhile_nil, List.length_nil]; omega)
    simp [none_yet, standing, Spaced]
  | cons a rest ih =>
    have lt := h.lt
    have received := h.received
    have positive := F.positive
    cases ha : F.header a with
    | some m =>
      -- A header abandons the frame in progress and begins its own.
      have dropped : current F age s (a :: rest) = [] := if_neg (by rw [gap_header ha]; omega)
      have begun : current F 0 ⟨m, []⟩ rest ++ (standing F (k + 1) rest).map Prod.snd =
          (standing F k (a :: rest)).map Prod.snd := by
        by_cases room : F.length ≤ gap F rest <;> simp [current, standing, ha, room, positive]
      have next := ih 0 (k + 1) ⟨m, []⟩ ⟨by omega, by simp [positive]⟩
      rw [begun] at next
      simpa [frames_cons, emitted_header ha, feed_header ha, dropped, Spaced, ha] using next
    | none =>
      have rest_places : standing F k (a :: rest) = standing F (k + 1) rest := by
        simp [standing, ha]
      have spaced : Spaced F age (a :: rest) ↔
          age + 1 < 2 * F.length ∧ Spaced F (age + 1) rest := by simp [Spaced, ha]
      rw [frames_cons, rest_places, spaced]
      by_cases full : F.length ≤ s.received.length + 1
      · rw [emitted_last ha s full, feed_last ha s full]
        have empty : Age F F.length (⟨s.mode, []⟩ : State α μ) := ⟨by omega, by simp⟩
        obtain ⟨sub, count⟩ := ih F.length (k + 1) ⟨s.mode, []⟩ empty
        rw [current_stale (Nat.le_refl _), List.nil_append] at sub count
        by_cases fresh : age < F.length
        · -- The last symbol of a frame that stands in the stream.
          rw [if_pos fresh] at received
          have last : age + 1 = F.length := by omega
          rw [current_last ha last, last]
          refine ⟨sub.cons_cons _, ?_⟩
          simp only [List.singleton_append, List.length_cons, Nat.add_right_cancel_iff, count]
          exact ⟨fun hs => ⟨by omega, hs⟩, fun hs => hs.2⟩
        · -- A frame that does not stand in the stream: no header since the last one.
          rw [if_neg fresh] at received
          rw [current_stale (by omega), List.nil_append]
          have le := sub.length_le
          refine ⟨sub.cons _, ⟨fun he => ?_, fun hs => absurd hs.1 (by omega)⟩⟩
          simp only [List.singleton_append, List.length_cons] at he
          omega
      · have short : s.received.length + 1 < F.length := by omega
        rw [emitted_data ha s short, feed_data ha s short, List.nil_append]
        obtain ⟨more, older⟩ := h.older short a
        obtain ⟨sub, count⟩ := ih (age + 1) (k + 1) _ older
        rw [current_data ha more] at sub count
        exact ⟨sub, count.trans ⟨fun hs => ⟨older.lt, hs⟩, fun hs => hs.2⟩⟩

/-! ### Stretches of data

What `Spaced` counts is the length of the stretches, those at the start of the stream and
those anywhere in it. -/

/-- A stream that begins with a header begins with no stretch of data. -/
theorem front_header {a : α} {m : μ} (ha : F.header a = some m) {n age : Nat} (h : age < n)
    (rest : List α) : ∀ ys, ys <+: a :: rest → Free F ys → age + ys.length < n := by
  intro ys hy free
  rcases List.prefix_cons_iff.mp hy with rfl | ⟨t, rfl, _⟩
  · exact h
  · rw [free_cons, ha] at free
    cases free.1

theorem front_data {a : α} (ha : F.header a = none) (n age : Nat) (rest : List α) :
    (∀ ys, ys <+: a :: rest → Free F ys → age + ys.length < n) ↔
      age < n ∧ ∀ ys, ys <+: rest → Free F ys → age + 1 + ys.length < n := by
  constructor
  · intro front
    refine ⟨front [] List.nil_prefix fun _ hb => absurd hb List.not_mem_nil, fun ys hy free => ?_⟩
    have longer := front (a :: ys) ((List.prefix_cons_inj a).mpr hy) (free_cons.mpr ⟨ha, free⟩)
    rw [List.length_cons] at longer
    omega
  · rintro ⟨h, front⟩ ys hy free
    rcases List.prefix_cons_iff.mp hy with rfl | ⟨t, rfl, ht⟩
    · exact h
    · have shorter := front t ht (free_cons.mp free).2
      rw [List.length_cons]
      omega

/-- Spacing without the count: the stretch at the start of the stream is as old as it
was before, the others begin at a header or later. -/
theorem spaced_iff (xs : List α) (age : Nat) (h : age < 2 * F.length) :
    Spaced F age xs ↔
      (∀ ys, ys <+: xs → Free F ys → age + ys.length < 2 * F.length) ∧
        ∀ ys, ys <:+: xs → Free F ys → ys.length < 2 * F.length := by
  have positive := F.positive
  induction xs generalizing age with
  | nil => simp [Spaced, h, positive]
  | cons a rest ih =>
    simp only [List.infix_cons_iff, or_imp, forall_and, Spaced]
    cases ha : F.header a with
    | some m =>
      have fresh := ih 0 (by omega)
      refine ⟨fun spaced => ?_, fun ⟨_, _, inside⟩ => ?_⟩
      · have begins := front_header ha (show 0 < 2 * F.length by omega) rest
        simp only [Nat.zero_add] at begins
        exact ⟨front_header ha h rest, begins, (fresh.mp spaced).2⟩
      · refine fresh.mpr ⟨fun ys hy free => ?_, inside⟩
        rw [Nat.zero_add]
        exact inside ys hy.isInfix free
    | none =>
      rw [front_data ha]
      refine ⟨fun ⟨lt, spaced⟩ => ?_, fun ⟨⟨_, front⟩, _, inside⟩ => ?_⟩
      · obtain ⟨front, inside⟩ := (ih (age + 1) lt).mp spaced
        refine ⟨⟨h, front⟩, fun ys hy free => ?_, inside⟩
        have older := (front_data ha _ age rest).mpr ⟨h, front⟩ ys hy free
        omega
      · have lt : age + 1 < 2 * F.length :=
          front [] List.nil_prefix fun _ hb => absurd hb List.not_mem_nil
        exact ⟨lt, (ih (age + 1) lt).mpr ⟨front, inside⟩⟩

/-- **When what is handed over stands in the stream.** From a state that holds nothing
and has seen no header: exactly if the stream does not begin with a frame's length of
data and has no stretch of data of twice that length. -/
theorem sound_iff (xs : List α) (s : State α μ) (h : s.received = []) :
    Sound F xs (frames F s xs) ↔
      (∀ ys, ys <+: xs → Free F ys → ys.length < F.length) ∧
        ∀ ys, ys <:+: xs → Free F ys → ys.length < 2 * F.length := by
  have positive := F.positive
  have age : Age F F.length s := ⟨by omega, by simp [h]⟩
  obtain ⟨sub, count⟩ := standing_sublist xs F.length 0 s age
  rw [current_stale (Nat.le_refl _), List.nil_append] at sub count
  have spaced := spaced_iff (F := F) xs F.length (by omega)
  have front (ys : List α) : F.length + ys.length < 2 * F.length ↔ ys.length < F.length := by
    omega
  simp only [front] at spaced
  rw [← spaced, ← count]
  constructor
  · intro sound
    have le := sound.length_le
    have ge := sub.length_le
    rw [List.length_map] at ge ⊢
    omega
  · intro same
    rw [← sub.eq_of_length same.symm]
    exact standing_sound xs

end CofferLed.Library.Framing
