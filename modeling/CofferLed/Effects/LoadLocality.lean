import CofferLed.Effects.LoadRing

/-! The load display is local: an LED shows the loads of one or two of the four groups of
nodes, and nothing of the others.

A pixel of the ring shows its segment, and at an edge also the segment across the edge. An
LED shows the pixels before and after it, which together never touch three segments. -/
namespace CofferLed.Effects
open Library CofferLed.Core Sketch

/-! ### Segments -/

/-- The segments that a pixel of the ring shows. -/
def touches (j : Nat) : List Nat :=
  let s := j / numSubsegments
  s :: ((if j % numSubsegments = 0 then [prevSegment s] else []) ++
    if j % numSubsegments = numSubsegments - 1 then [nextSegment s] else [])

theorem mem_touches (j t : Nat) : t ∈ touches j ↔ t = (meeting j).1 ∨ t = (meeting j).2 := by
  simp only [touches, meeting]
  split
  case isTrue first =>
    have inner : ¬ j % numSubsegments = numSubsegments - 1 := by
      rw [first]
      decide
    rw [if_neg inner]
    simp [or_comm]
  case isFalse =>
    split <;> simp

theorem touches_lt (j : Nat) (h : j < resolution) : ∀ t ∈ touches j, t < numSegments := by
  revert j
  decide

/-- The segments that the neighbours of LED `i` show. -/
def touchedBy (N i : Nat) : List Nat :=
  touches (onRing ⌊position N i⌋) ++ touches (onRing ⌈position N i⌉)

theorem touchedBy_lt {N i : Nat} : ∀ t ∈ touchedBy N i, t < numSegments := by
  intro t ht
  rcases List.mem_append.mp ht with ht | ht
  · exact touches_lt _ (onRing_lt _) t ht
  · exact touches_lt _ (onRing_lt _) t ht

/-- At a pixel and from it to the next, up to the last one of the ring. -/
private theorem touches_pair :
    (∀ q < resolution, ∃ s < numSegments, ∀ t ∈ touches (onRing (q : ℤ)),
      t = s ∨ t = nextSegment s) ∧
    ∀ q < resolution - 1, ∃ s < numSegments,
      ∀ t ∈ touches (onRing (q : ℤ)) ++ touches (onRing ((q : ℤ) + 1)),
        t = s ∨ t = nextSegment s := by
  decide

theorem touchedBy_pair {N : Nat} (two : 2 ≤ N) (i : Nat) (h : i < N) :
    ∃ s < numSegments, ∀ t ∈ touchedBy N i, t = s ∨ t = nextSegment s := by
  have low := position_nonneg two i
  obtain ⟨⟨down, _⟩, _, up⟩ := neighbours_bounds low (position_le two i h)
  obtain ⟨q, hq⟩ := Int.eq_ofNat_of_zero_le down
  have close : ⌈position N i⌉ = ⌊position N i⌋ ∨ ⌈position N i⌉ = ⌊position N i⌋ + 1 := by
    have ge := Int.floor_le_ceil (position N i)
    have le := Int.ceil_le_floor_add_one (position N i)
    omega
  rcases close with same | next
  · obtain ⟨s, hs, pair⟩ := touches_pair.1 q (by rw [same, hq] at up; exact_mod_cast up)
    refine ⟨s, hs, fun t ht => pair t ?_⟩
    rw [touchedBy, same, hq, List.mem_append, or_self] at ht
    exact ht
  · obtain ⟨s, hs, pair⟩ := touches_pair.2 q (by rw [next, hq] at up; omega)
    refine ⟨s, hs, fun t ht => pair t ?_⟩
    rw [touchedBy, next, hq] at ht
    exact ht

/-! ### Colours -/

section Ring
variable (load : Vector (BitVec 8) 16) (k : Nat) (hk : k < 4) (m : ℤ)
include hk

theorem ringByte_mem {low high : Nat}
    (bounds : ∀ t ∈ touches (onRing m), low ≤ ((loadColor load t).byte k).toNat ∧
      ((loadColor load t).byte k).toNat ≤ high) :
    (low : ℚ) ≤ ringByte load k m ∧ ringByte load k m ≤ high := by
  obtain ⟨low1, high1⟩ := bounds _ ((mem_touches _ _).mpr (Or.inl rfl))
  obtain ⟨low2, high2⟩ := bounds _ ((mem_touches _ _).mpr (Or.inr rfl))
  rw [ringByte_eq load k hk m]
  generalize (((loadColor load (meeting (onRing m)).1).byte k).toNat) = x at *
  generalize (((loadColor load (meeting (onRing m)).2).byte k).toNat) = y at *
  have ge : low ≤ (x + y + 1) / 2 := by omega
  have le : (x + y + 1) / 2 ≤ high := by omega
  exact ⟨Nat.cast_le.mpr ge, Nat.cast_le.mpr le⟩

/-- One dark segment takes away half of the full brightness at least. -/
theorem ringByte_pale (t : Nat) (ht : t ∈ touches (onRing m))
    (dark : ((loadColor load t).byte k).toNat = 0) : ringByte load k m < 255 := by
  have byte1 := ((loadColor load (meeting (onRing m)).1).byte k).isLt
  have byte2 := ((loadColor load (meeting (onRing m)).2).byte k).isLt
  rw [ringByte_eq load k hk m]
  norm_cast
  rcases (mem_touches _ _).mp ht with rfl | rfl <;> omega

end Ring

section Led
variable {N : Nat} (two : 2 ≤ N) {pixels : PixelBuffer} (offset : pixels.shiftOffset = 4)
  (load : Vector (BitVec 8) 16) (strip : Strip N) (i : Nat) (h : i < N)
include two offset h

theorem loadShown_mem (k : Nat) (hk : k < 3) {low high : Nat}
    (bounds : ∀ t ∈ touchedBy N i, low ≤ ((loadColor load t).byte k).toNat ∧
      ((loadColor load t).byte k).toNat ≤ high) :
    low ≤ ((loadShown load pixels strip i).byte k).toNat ∧
      ((loadShown load pixels strip i).byte k).toNat ≤ high := by
  have hk4 : k < 4 := by omega
  have left := ringByte_mem load k hk4 ⌊position N i⌋
    fun t ht => bounds t (List.mem_append_left _ ht)
  have right := ringByte_mem load k hk4 ⌈position N i⌉
    fun t ht => bounds t (List.mem_append_right _ ht)
  rw [← Int.cast_natCast low, ← Int.cast_natCast high] at left right
  obtain ⟨ge, le⟩ := floor_polyline_mem left right
  rw [← loadShown_byte two offset load strip i h k hk] at ge le
  exact ⟨by exact_mod_cast ge, by exact_mod_cast le⟩

/-- Between the least and the greatest of the touched segments. -/
theorem loadShown_between (k : Nat) (hk : k < 3) :
    (∃ s ∈ touchedBy N i, ((loadColor load s).byte k).toNat ≤
      ((loadShown load pixels strip i).byte k).toNat) ∧
    ∃ s ∈ touchedBy N i, ((loadShown load pixels strip i).byte k).toNat ≤
      ((loadColor load s).byte k).toNat := by
  have byte (c : Color) : (c.byte k).toNat ≤ 255 := Nat.le_of_lt_succ (c.byte k).isLt
  refine ⟨?_, ?_⟩
  · by_contra! all
    have above := loadShown_mem two offset load strip i h k hk
      fun t ht => ⟨Nat.succ_le_of_lt (all t ht), byte _⟩
    exact absurd above.1 (Nat.not_succ_le_self _)
  · by_contra! all
    have below := loadShown_mem two offset load strip i h k hk
      fun t ht => ⟨Nat.zero_le _, Nat.le_sub_one_of_lt (all t ht)⟩
    obtain ⟨t, ht⟩ : ∃ t, t ∈ touchedBy N i := ⟨_, List.mem_cons_self⟩
    have positive := all t ht
    omega

/-- A touched segment that is alone is shown as it is. -/
theorem loadShown_alone (s : Nat) (alone : ∀ t ∈ touchedBy N i, t = s) :
    loadShown load pixels strip i = loadColor load s := by
  refine loadShown_eq h (loadColor_top load s) fun k hk => ?_
  obtain ⟨ge, le⟩ := loadShown_mem two offset load strip i h k hk
    (fun t ht => by rw [alone t ht]; exact ⟨le_refl _, le_refl _⟩)
  exact le_antisymm le ge

/-- Loads that agree on the nodes of the touched segments. -/
theorem loadShown_congr {load' : Vector (BitVec 8) 16}
    (same : ∀ t ∈ touchedBy N i, ∀ n ∈ segmentNodes t, load'.get n = load.get n) :
    loadShown load' pixels strip i = loadShown load pixels strip i := by
  have color (t : Nat) (ht : t ∈ touchedBy N i) : loadColor load' t = loadColor load t :=
    loadColor_congr t (touchedBy_lt t ht) (same t ht)
  have ring (k : Nat) (hk : k < 4) (m : ℤ)
      (within : ∀ t ∈ touches (onRing m), t ∈ touchedBy N i) :
      ringByte load' k m = ringByte load k m := by
    rw [ringByte_eq load' k hk m, ringByte_eq load k hk m,
      color _ (within _ ((mem_touches _ _).mpr (Or.inl rfl))),
      color _ (within _ ((mem_touches _ _).mpr (Or.inr rfl)))]
  refine loadShown_eq h (loadShown_top load pixels strip i h) fun k hk => ?_
  rw [← Int.ofNat_inj, loadShown_byte two offset load' strip i h k hk,
    loadShown_byte two offset load strip i h k hk, polyline, polyline,
    ring k (by omega) _ fun t ht => List.mem_append_left _ ht,
    ring k (by omega) _ fun t ht => List.mem_append_right _ ht]

/-- A touched segment that is dark on a channel keeps it from full brightness. -/
theorem loadShown_pale (k : Nat) (hk : k < 3) (t : Nat) (ht : t ∈ touchedBy N i)
    (dark : ((loadColor load t).byte k).toNat = 0) :
    ((loadShown load pixels strip i).byte k).toNat < 255 := by
  have hk4 : k < 4 := by omega
  have full (m : ℤ) : ringByte load k m ≤ (255 : ℕ) :=
    (ringByte_mem load k hk4 m fun t _ => ⟨Nat.zero_le _,
      Nat.le_of_lt_succ ((loadColor load t).byte k).isLt⟩).2
  have below : polyline (ringByte load k) (position N i) < 255 := by
    refine polyline_lt (by exact_mod_cast full _) (by exact_mod_cast full _) ?_
    rcases List.mem_append.mp ht with ht | ht
    · exact Or.inl (ringByte_pale load k hk4 _ t ht dark)
    · exact Or.inr (ringByte_pale load k hk4 _ t ht dark)
  have cut : (((loadShown load pixels strip i).byte k).toNat : ℤ) < 255 := by
    rw [loadShown_byte two offset load strip i h k hk, Int.floor_lt]
    exact_mod_cast below
  exact_mod_cast cut

end Led

/-! ### Loads that tell the segments apart -/

/-- Full load on the nodes of one segment, none on the others. -/
def spot (s : Nat) : Vector (BitVec 8) 16 :=
  Vector.ofFn fun n => if n ∈ segmentNodes s then 255 else 0

private theorem total_spot : ∀ s < numSegments, ∀ t < numSegments,
    total (spot s) (segmentNodes t) / 4 = if t = s then 255 else 0 := by
  decide

theorem loadColor_spot (s : Nat) (hs : s < numSegments) (t : Nat) (ht : t < numSegments) :
    loadColor (spot s) t = if t = s then hotColor else coldColor := by
  have lt : t < 4 := ht
  have mean := calcAggregateLoad_val (spot s) t lt
  rw [total_spot s hs t ht] at mean
  rw [loadColor, segmentColor, Vector.getElem?_eq_getElem lt, Option.getD_some, mapLoadToColor, mean]
  split
  · exact Color.interpolate_of_one_le coldColor hotColor (by norm_num)
  · exact Color.interpolate_of_nonpos coldColor hotColor (by norm_num)

/-- Two touched segments, one of them at full load: neither is shown as it is. -/
theorem loadShown_spot {N : Nat} (two : 2 ≤ N) {pixels : PixelBuffer}
    (offset : pixels.shiftOffset = 4) (strip : Strip N) (i : Nat) (h : i < N) (s : Nat)
    (hs : s ∈ touchedBy N i) (t : Nat) (ht : t ∈ touchedBy N i) (other : t ≠ s) (u : Nat)
    (hu : u ∈ touchedBy N i) : loadShown (spot s) pixels strip i ≠ loadColor (spot s) u := by
  have color (v : Nat) (hv : v ∈ touchedBy N i) :=
    loadColor_spot s (touchedBy_lt s hs) v (touchedBy_lt v hv)
  have green := loadShown_pale two offset (spot s) strip i h 1 (by decide) s hs
    (by rw [color s hs, if_pos rfl]; decide)
  have red := loadShown_pale two offset (spot s) strip i h 2 (by decide) t ht
    (by rw [color t ht, if_neg other]; decide)
  intro same
  rw [same, color u hu] at green red
  by_cases here : u = s
  · rw [if_pos here] at red
    exact absurd red (by decide)
  · rw [if_neg here] at green
    exact absurd green (by decide)

/-! ### The result -/

/-- Every node is in one segment. -/
theorem segmentNodes_partition (n : Fin 16) : ∃ s < numSegments, n ∈ segmentNodes s ∧
    ∀ t < numSegments, n ∈ segmentNodes t → t = s := by
  revert n
  decide

/-- **The load display is local.** The neighbours of an LED touch one segment or two that
are next to each other. Whatever the loads, each channel of the LED lies between the least
and the greatest of the touched segments; it is the colour of a touched segment, whatever
the loads, exactly when there is only one. Loads of nodes in other segments do not count. -/
theorem load_local {N : Nat} (two : 2 ≤ N) (i : Nat) (h : i < N) {pixels : PixelBuffer}
    (offset : pixels.shiftOffset = 4) (strip : Strip N) :
    (∃ s < numSegments, ∀ t ∈ touchedBy N i, t = s ∨ t = nextSegment s) ∧
      (∀ (load : Vector (BitVec 8) 16) (k : Nat), k < 3 →
        (∃ s ∈ touchedBy N i, ((loadColor load s).byte k).toNat ≤
          ((loadShown load pixels strip i).byte k).toNat) ∧
        ∃ s ∈ touchedBy N i, ((loadShown load pixels strip i).byte k).toNat ≤
          ((loadColor load s).byte k).toNat) ∧
      (∀ (load : Vector (BitVec 8) 16) (s : Nat), (∀ t ∈ touchedBy N i, t = s) →
        loadShown load pixels strip i = loadColor load s) ∧
      ((∀ load : Vector (BitVec 8) 16, ∃ s ∈ touchedBy N i,
          loadShown load pixels strip i = loadColor load s) ↔
        ∃ s, ∀ t ∈ touchedBy N i, t = s) ∧
      (∀ load load' : Vector (BitVec 8) 16,
        (∀ n : Fin 16, (∃ s ∈ touchedBy N i, n ∈ segmentNodes s) → load'.get n = load.get n) →
          loadShown load' pixels strip i = loadShown load pixels strip i) ∧
      ∀ n : Fin 16, ∃ s < numSegments, n ∈ segmentNodes s ∧
        ∀ t < numSegments, n ∈ segmentNodes t → t = s := by
  have some_touched : ∃ s, s ∈ touchedBy N i := ⟨_, List.mem_cons_self⟩
  refine ⟨touchedBy_pair two i h, fun load k hk => loadShown_between two offset load strip i h k hk,
    fun load s alone => loadShown_alone two offset load strip i h s alone, ⟨?_, ?_⟩,
    fun load load' same => loadShown_congr two offset load strip i h
      fun t ht n hn => same n ⟨t, ht, hn⟩, segmentNodes_partition⟩
  · intro plain
    obtain ⟨s, hs⟩ := some_touched
    refine ⟨s, fun t ht => by_contra fun other => ?_⟩
    obtain ⟨u, hu, same⟩ := plain (spot s)
    exact loadShown_spot two offset strip i h s hs t ht other u hu same
  · rintro ⟨s, alone⟩ load
    obtain ⟨t, ht⟩ := some_touched
    exact ⟨s, alone t ht ▸ ht, loadShown_alone two offset load strip i h s alone⟩

/-- The first LED of the coffer's strip is all in one segment: at full load it is red. -/
theorem load_local_coffer :
    loadShown (Vector.replicate 16 255) (PixelBuffer.reset.offset 4) (Strip.create 98) 0 =
      loadColor (Vector.replicate 16 255) 0 := by
  have start : position 98 0 = 0 := by
    norm_num [position]
  have alone : ∀ t ∈ touchedBy 98 0, t = 0 := by
    rw [touchedBy, start, Int.floor_zero, Int.ceil_zero]
    decide
  exact (load_local (by decide) 0 (by decide) rfl (Strip.create 98)).2.2.1 _ 0 alone

end CofferLed.Effects
