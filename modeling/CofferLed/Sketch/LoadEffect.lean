import CofferLed.Sketch.PixelBuffer
import Mathlib.Algebra.Order.BigOperators.Group.List

/-! The load effect on the ring of pixels: the mean load of each group of four nodes
colours one segment, and neighbouring segments meet half-way. -/
namespace CofferLed.Sketch
open Library CofferLed.Core

/-! ### Loads -/

/-- `sum = 0; sum += load[n]; …` over some nodes. -/
def sumLoads (load : Vector (BitVec 8) 16) (nodes : List (Fin 16)) : Exec Nat :=
  nodes.foldlM (fun sum n => addUint16 sum (load.get n).toNat) 0

/-- One entry of `aggregate`: the mean of four nodes. -/
def aggregateOf (load : Vector (BitVec 8) 16) (nodes : List (Fin 16)) : Exec (BitVec 8) := do
  let sum ← sumLoads load nodes
  toUint8 (sum / 4 : Nat)

def calcAggregateLoad (load : Vector (BitVec 8) 16) : Exec (Vector (BitVec 8) 4) := do
  let a0 ← aggregateOf load [8, 9, 12, 13]
  let a1 ← aggregateOf load [10, 11, 14, 15]
  let a2 ← aggregateOf load [2, 3, 6, 7]
  let a3 ← aggregateOf load [0, 1, 4, 5]
  pure #v[a0, a1, a2, a3]

def calcTotalLoad (load : Vector (BitVec 8) 16) : Exec (BitVec 8) := do
  let sum ← sumLoads load [0, 1, 2, 3, 4, 5, 6, 7, 8, 9, 10, 11, 12, 13, 14, 15]
  let sum := sum / 16
  let sum := if sum > 100 then 100 else sum
  toUint8 (sum : Nat)

/-! ### The ring -/

def coldColor : Color := ⟨0x00FF00⟩
def hotColor : Color := ⟨0xFF0000⟩

def mapLoadToColor (load : BitVec 8) : Exec Color :=
  coldColor.interpolate hotColor (load.toNat / 100)

/-- The colour of ring pixel `i`. The two pixels at an edge of a segment lie half-way
between its colour and the neighbour's. -/
def ringColor (aggregateLoad : Vector (BitVec 8) 4) (i : Nat) : Exec Color := do
  let product ← mulInt i numSegments
  let segIdx := product / resolution
  let subsegIdx := i % numSubsegments
  let segLoad ← Checked.readAt .index aggregateLoad segIdx
  let segCol ← mapLoadToColor segLoad
  if subsegIdx = 0 then
    let prevSegIdx := if segIdx = 0 then numSegments - 1 else segIdx - 1
    let prevSegLoad ← Checked.readAt .index aggregateLoad prevSegIdx
    let prevSegCol ← mapLoadToColor prevSegLoad
    prevSegCol.interpolate segCol (1 / 2)
  else if subsegIdx = numSubsegments - 1 then
    let nextSegIdx := (segIdx + 1) % numSegments
    let nextSegLoad ← Checked.readAt .index aggregateLoad nextSegIdx
    let nextSegCol ← mapLoadToColor nextSegLoad
    segCol.interpolate nextSegCol (1 / 2)
  else mapLoadToColor segLoad

def updateLoadEffect (load : Vector (BitVec 8) 16) (pixels : PixelBuffer) : Exec PixelBuffer := do
  let aggregateLoad ← calcAggregateLoad load
  Checked.forRange resolution
    (fun i pixels => do
      let color ← ringColor aggregateLoad i
      pixels.assign i color)
    pixels

/-! ### What the loads come to -/

/-- The sum of the loads of some nodes. -/
def total (load : Vector (BitVec 8) 16) (nodes : List (Fin 16)) : Nat :=
  (nodes.map fun n => (load.get n).toNat).sum

theorem total_le (load : Vector (BitVec 8) 16) (nodes : List (Fin 16)) :
    total load nodes ≤ 255 * nodes.length := by
  induction nodes with
  | nil => exact Nat.le_refl 0
  | cons n rest ih =>
    have byte : (load.get n).toNat ≤ 255 := Nat.le_of_lt_succ (load.get n).isLt
    simp only [total, List.map_cons, List.sum_cons, List.length_cons] at ih ⊢
    omega

private theorem sum_from (load : Vector (BitVec 8) 16) (nodes : List (Fin 16)) (start : Nat) :
    (nodes.foldlM (fun sum n => addUint16 sum (load.get n).toNat) start : Exec Nat).val =
      start + total load nodes := by
  induction nodes generalizing start with
  | nil => rfl
  | cons n rest ih =>
    rw [List.foldlM_cons, Checked.val_bind, addUint16_val, ih]
    simp only [total, List.map_cons, List.sum_cons]
    omega

theorem sumLoads_val (load : Vector (BitVec 8) 16) (nodes : List (Fin 16)) :
    (sumLoads load nodes).val = total load nodes := by
  rw [sumLoads, sum_from, Nat.zero_add]

theorem sumLoads_safe (load : Vector (BitVec 8) 16) (nodes : List (Fin 16))
    (few : nodes.length ≤ 16) : (sumLoads load nodes).Safe := by
  suffices from_start : ∀ (rest : List (Fin 16)) (start : Nat),
      start + 255 * rest.length < 2 ^ 16 →
      (rest.foldlM (fun sum n => addUint16 sum (load.get n).toNat) start : Exec Nat).Safe from
    from_start nodes 0 (by omega)
  intro rest
  induction rest with
  | nil =>
    intro start _
    exact Checked.safe_pure start
  | cons n rest ih =>
    intro start room
    have byte : (load.get n).toNat ≤ 255 := Nat.le_of_lt_succ (load.get n).isLt
    rw [List.length_cons] at room
    rw [List.foldlM_cons, Checked.safe_bind, addUint16_safe, addUint16_val]
    exact ⟨by omega, ih _ (by omega)⟩

theorem aggregateOf_val (load : Vector (BitVec 8) 16) (nodes : List (Fin 16))
    (four : nodes.length = 4) : (aggregateOf load nodes).val.toNat = total load nodes / 4 := by
  have le := total_le load nodes
  simp only [aggregateOf, Checked.val_bind, sumLoads_val, toUint8_val, BitVec.ofInt_natCast,
    BitVec.toNat_ofNat]
  omega

theorem aggregateOf_safe (load : Vector (BitVec 8) 16) (nodes : List (Fin 16))
    (four : nodes.length = 4) : (aggregateOf load nodes).Safe := by
  have le := total_le load nodes
  rw [aggregateOf, Checked.safe_bind, toUint8_safe, sumLoads_val]
  exact ⟨sumLoads_safe load nodes (by omega), by omega, by omega⟩

/-- The nodes of a segment. -/
def segmentNodes : Nat → List (Fin 16)
  | 0 => [8, 9, 12, 13]
  | 1 => [10, 11, 14, 15]
  | 2 => [2, 3, 6, 7]
  | _ => [0, 1, 4, 5]

theorem calcAggregateLoad_val (load : Vector (BitVec 8) 16) (s : Nat) (h : s < 4) :
    (calcAggregateLoad load).val[s].toNat = total load (segmentNodes s) / 4 := by
  match s with
  | 0 => exact aggregateOf_val load _ rfl
  | 1 => exact aggregateOf_val load _ rfl
  | 2 => exact aggregateOf_val load _ rfl
  | 3 => exact aggregateOf_val load _ rfl

theorem calcAggregateLoad_safe (load : Vector (BitVec 8) 16) : (calcAggregateLoad load).Safe := by
  simp [calcAggregateLoad, aggregateOf_safe]

/-- All the nodes. -/
def allNodes : List (Fin 16) := [0, 1, 2, 3, 4, 5, 6, 7, 8, 9, 10, 11, 12, 13, 14, 15]

theorem calcTotalLoad_val (load : Vector (BitVec 8) 16) :
    (calcTotalLoad load).val.toNat = min 100 (total load allNodes / 16) := by
  show (BitVec.ofInt 8 (if (sumLoads load allNodes).val / 16 > 100 then 100
    else (sumLoads load allNodes).val / 16 : Nat)).toNat = _
  rw [sumLoads_val, BitVec.ofInt_natCast, BitVec.toNat_ofNat]
  split <;> omega

theorem calcTotalLoad_safe (load : Vector (BitVec 8) 16) : (calcTotalLoad load).Safe := by
  have sum := sumLoads_safe load allNodes (by decide)
  rw [calcTotalLoad, Checked.safe_bind]
  refine ⟨sum, (toUint8_safe _).mpr ?_⟩
  split <;> omega

/-! ### What the ring shows -/

/-- The colour of a segment. -/
def segmentColor (aggregateLoad : Vector (BitVec 8) 4) (s : Nat) : Color :=
  (mapLoadToColor (aggregateLoad[s]?.getD 0)).val

def prevSegment (s : Nat) : Nat := if s = 0 then numSegments - 1 else s - 1
def nextSegment (s : Nat) : Nat := (s + 1) % numSegments

theorem prevSegment_lt (s : Nat) (h : s < numSegments) : prevSegment s < numSegments := by
  unfold prevSegment
  split <;> omega

theorem nextSegment_lt (s : Nat) : nextSegment s < numSegments := Nat.mod_lt _ (by decide)

/-- Ring pixel `i` is in segment `i / 9`. -/
theorem segment_index (i : Nat) (h : i < resolution) :
    i * numSegments / resolution = i / numSubsegments ∧ i / numSubsegments < numSegments := by
  simp only [resolution, numSegments, numSubsegments] at h ⊢
  omega

private theorem readSegment (aggregateLoad : Vector (BitVec 8) 4) (s : Nat) (h : s < numSegments) :
    (mapLoadToColor (Checked.readAt Fault.index aggregateLoad s).val).val =
      segmentColor aggregateLoad s := by
  have h : s < 4 := h
  rw [Checked.val_readAt _ _ _ h, segmentColor, Vector.getElem?_eq_getElem h, Option.getD_some]

/-- The colours of the ring: that of the segment, and at its edges the middle between it
and its neighbour on that side. -/
theorem ringColor_val (aggregateLoad : Vector (BitVec 8) 4) (i : Nat) (h : i < resolution) :
    let s := i / numSubsegments
    (ringColor aggregateLoad i).val =
      if i % numSubsegments = 0 then
        ((segmentColor aggregateLoad (prevSegment s)).interpolate
          (segmentColor aggregateLoad s) (1 / 2)).val
      else if i % numSubsegments = numSubsegments - 1 then
        ((segmentColor aggregateLoad s).interpolate
          (segmentColor aggregateLoad (nextSegment s)) (1 / 2)).val
      else segmentColor aggregateLoad s := by
  obtain ⟨index, lt⟩ := segment_index i h
  have prev := prevSegment_lt _ lt
  have next := nextSegment_lt (i / numSubsegments)
  simp only [ringColor, Checked.val_bind, Checked.val_ite, mulInt_val, index,
    readSegment _ _ lt]
  split
  · rw [← readSegment _ _ prev, prevSegment]
  · split
    · rw [← readSegment _ _ next, nextSegment]
    · rfl

theorem mapLoadToColor_safe (load : BitVec 8) : (mapLoadToColor load).Safe :=
  Color.interpolate_safe _ _ _

theorem ringColor_safe (aggregateLoad : Vector (BitVec 8) 4) (i : Nat) (h : i < resolution) :
    (ringColor aggregateLoad i).Safe := by
  obtain ⟨index, lt⟩ := segment_index i h
  have product : i * numSegments < 2 ^ 15 := by
    simp only [resolution, numSegments, numSubsegments] at h ⊢
    omega
  have prev : (if i / numSubsegments = 0 then numSegments - 1
      else i / numSubsegments - 1) < 4 := prevSegment_lt _ lt
  have next : (i / numSubsegments + 1) % numSegments < 4 := nextSegment_lt _
  have seg : i / numSubsegments < 4 := lt
  simp only [ringColor, Checked.safe_bind, Checked.safe_readAt, mulInt_safe, mulInt_val, index,
    mapLoadToColor_safe, product, seg, true_and]
  split
  · simp only [Checked.safe_bind, Checked.safe_readAt, mapLoadToColor_safe, prev, true_and,
      Color.interpolate_safe]
  · split
    · simp only [Checked.safe_bind, Checked.safe_readAt, mapLoadToColor_safe, next, true_and,
        Color.interpolate_safe]
    · exact mapLoadToColor_safe _

theorem updateLoadEffect_pixel (load : Vector (BitVec 8) 16) (pixels : PixelBuffer) (j : Nat)
    (h : j < resolution) :
    (updateLoadEffect load pixels).val.pixel j =
      (ringColor (calcAggregateLoad load).val j).val := by
  have cell := Checked.forRange_cell (fun (p : PixelBuffer) j => p.pixel j)
    (fun j _ => (ringColor (calcAggregateLoad load).val j).val)
    (fun i hi p => (p.assign_pixel i hi _ i).trans (if_pos rfl))
    (fun i hi p k hk => (p.assign_pixel i hi _ k).trans (if_neg hk)) pixels j
  exact cell.trans (if_pos h)

theorem updateLoadEffect_offset (load : Vector (BitVec 8) 16) (pixels : PixelBuffer) :
    (updateLoadEffect load pixels).val.shiftOffset = pixels.shiftOffset := by
  rw [updateLoadEffect, Checked.val_bind]
  refine Checked.forRange_keep (fun p : PixelBuffer => p.shiftOffset) ?_ pixels
  intro i _ p
  rfl

theorem updateLoadEffect_safe (load : Vector (BitVec 8) 16) (pixels : PixelBuffer) :
    (updateLoadEffect load pixels).Safe := by
  rw [updateLoadEffect, Checked.safe_bind]
  refine ⟨calcAggregateLoad_safe load, Checked.forRange_safe_of_rounds ?_ pixels⟩
  intro i hi p
  rw [Checked.safe_bind]
  exact ⟨ringColor_safe _ i hi, p.assign_safe i hi _⟩

end CofferLed.Sketch
