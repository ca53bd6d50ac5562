import WordStream.Buffer
import WordStream.Proofs.Refusal

/-!
# Buffers as lists of written bytes

A buffer is seen as the list of the bytes before its position.  Growth keeps this list, storing a
byte and stepping past it appends to the list, and only growth can be refused.
-/

namespace WordStream.Buffer

/-- A buffer whose position is inside it and whose array is no larger than any allocation. -/
structure Fits (b : Buffer) : Prop where
  position_le : b.position ≤ b.capacity
  capacity_le : b.capacity ≤ Limits.maxAllocation

/-- The byte at the position, if there is one. -/
def current? (b : Buffer) : Option UInt8 := b.bytes[b.position]?

/-- The buffer with the byte at the position replaced by its image under `f`. -/
def mapCurrent (f : UInt8 → UInt8) (b : Buffer) : Buffer :=
  { b with bytes := b.bytes.modify b.position f }

/-- The buffer at its next position. -/
def stepped (b : Buffer) : Buffer := { b with position := b.position + 1 }

/-- The buffer at another position. -/
def movedTo (position : Nat) (b : Buffer) : Buffer := { b with position }

/-- The buffer at its next position, grown if no byte is there. -/
def advanced (b : Buffer) : Buffer := if b.stepped.isFull then b.stepped.grown else b.stepped

/-- The buffer after bytes have been put one after the other. -/
def filled : List UInt8 → Buffer → Buffer
  | [], b => b
  | byte :: bytes, b => filled bytes (b.mapCurrent fun _ => byte).stepped

theorem toList_written (b : Buffer) : b.written.toList = b.bytes.toList.take b.position := by
  simp [written, firstBytes]

theorem length_written {b : Buffer} (h : b.position ≤ b.capacity) :
    b.written.toList.length = b.position := by
  rw [toList_written, List.length_take, Array.length_toList]
  exact Nat.min_eq_left h

theorem exists_current {b : Buffer} (h : b.position < b.capacity) :
    ∃ byte, b.current? = some byte :=
  ⟨b.bytes[b.position], Array.getElem?_eq_getElem h⟩

/-! ## Storing -/

@[simp] theorem mapCurrent_position (f : UInt8 → UInt8) (b : Buffer) :
    (b.mapCurrent f).position = b.position := rfl

@[simp] theorem mapCurrent_capacity (f : UInt8 → UInt8) (b : Buffer) :
    (b.mapCurrent f).capacity = b.capacity := by
  simp [mapCurrent, capacity]

@[simp] theorem mapCurrent_current? (f : UInt8 → UInt8) (b : Buffer) :
    (b.mapCurrent f).current? = b.current?.map f := by
  simp [mapCurrent, current?, Array.getElem?_modify]

theorem stored_current? {b : Buffer} (h : b.position < b.capacity) (byte : UInt8) :
    (b.mapCurrent fun _ => byte).current? = some byte := by
  obtain ⟨old, hold⟩ := exists_current h
  rw [mapCurrent_current?, hold, Option.map_some]

theorem mapCurrent_room {b : Buffer} (h : b.position < b.capacity) (f : UInt8 → UInt8) :
    (b.mapCurrent f).position < (b.mapCurrent f).capacity := by
  rwa [mapCurrent_position, mapCurrent_capacity]

theorem Fits.mapCurrent {b : Buffer} (h : b.Fits) (f : UInt8 → UInt8) : (b.mapCurrent f).Fits := by
  constructor
  · rw [mapCurrent_position, mapCurrent_capacity]
    exact h.position_le
  · rw [mapCurrent_capacity]
    exact h.capacity_le

@[simp] theorem mapCurrent_written (f : UInt8 → UInt8) (b : Buffer) :
    (b.mapCurrent f).written = b.written := by
  apply Array.toList_inj.mp
  rw [toList_written, toList_written]
  -- The byte that is replaced lies behind all that is written.
  apply List.ext_getElem?
  intro i
  simp only [mapCurrent, List.getElem?_take]
  by_cases hi : i < b.position
  · rw [if_pos hi, if_pos hi, Array.getElem?_toList, Array.getElem?_toList,
      Array.getElem?_modify, if_neg (by omega)]
  · rw [if_neg hi, if_neg hi]

/-- Replacing the byte at the position by its image is storing the image there. -/
theorem mapCurrent_eq_store {b : Buffer} {old : UInt8} (hold : b.current? = some old)
    (f : UInt8 → UInt8) :
    b.mapCurrent f = { b with bytes := b.bytes.setIfInBounds b.position (f old) } := by
  obtain ⟨hroom, hbyte⟩ := Array.getElem?_eq_some_iff.mp hold
  rw [mapCurrent]
  congr 1
  apply Array.ext_getElem?
  intro i
  rw [Array.getElem?_modify, Array.getElem?_setIfInBounds]
  by_cases hi : b.position = i
  · subst hi
    rw [if_pos rfl, if_pos rfl, if_pos hroom, Array.getElem?_eq_getElem hroom, hbyte,
      Option.map_some]
  · rw [if_neg hi, if_neg hi]

theorem modifyCurrent_ok {f : UInt8 → UInt8} {b : Buffer} (h : b.position < b.capacity) :
    modifyCurrent f b = .ok () (b.mapCurrent f) :=
  if_pos h

/-! ## Stepping -/

@[simp] theorem stepped_position (b : Buffer) : b.stepped.position = b.position + 1 := rfl

@[simp] theorem stepped_capacity (b : Buffer) : b.stepped.capacity = b.capacity := rfl

theorem stepped_written {b : Buffer} {byte : UInt8} (h : b.current? = some byte) :
    b.stepped.written.toList = b.written.toList ++ [byte] := by
  rw [toList_written, toList_written]
  change b.bytes.toList.take (b.position + 1) = _
  rw [current?, ← Array.getElem?_toList] at h
  obtain ⟨hlt, hbyte⟩ := List.getElem?_eq_some_iff.mp h
  rw [List.take_succ_eq_append_getElem hlt, hbyte]

/-! ## Moving -/

@[simp] theorem movedTo_position (position : Nat) (b : Buffer) :
    (b.movedTo position).position = position := rfl

@[simp] theorem movedTo_capacity (position : Nat) (b : Buffer) :
    (b.movedTo position).capacity = b.capacity := rfl

theorem Fits.movedTo {b : Buffer} (h : b.Fits) {position : Nat} (hposition : position ≤ b.capacity) :
    (b.movedTo position).Fits :=
  ⟨hposition, h.capacity_le⟩

/-- A move back cuts what is written. -/
theorem movedTo_written {position : Nat} {b : Buffer} (h : position ≤ b.position) :
    (b.movedTo position).written.toList = b.written.toList.take position := by
  rw [toList_written, toList_written, List.take_take, Nat.min_eq_left h]
  rfl

theorem setPosition_ok {position : Nat} {b : Buffer} (h : position ≤ b.capacity) :
    setPosition position b = .ok () (b.movedTo position) :=
  if_pos h

theorem setPosition_error {position : Nat} {b : Buffer} (h : ¬ position ≤ b.capacity) :
    setPosition position b = .error (.beyondCapacity position b.capacity) b :=
  if_neg h

/-! ## Growing -/

theorem grown_written {b : Buffer} (h : b.position ≤ b.capacity) : b.grown.written = b.written := by
  apply Array.toList_inj.mp
  rw [toList_written]
  change (b.written ++ Array.replicate _ 0).toList.take b.position = _
  rw [Array.toList_append,
    List.take_append_of_le_length (Nat.le_of_eq (length_written h).symm),
    List.take_of_length_le (Nat.le_of_eq (length_written h))]

theorem position_lt_grown {b : Buffer} (h : b.position ≤ b.capacity) :
    b.position < b.grown.capacity := by
  rw [grown_capacity]
  exact Nat.lt_of_le_of_lt h (capacity_lt_grownCapacity b.capacity)

/-- A buffer that fits can be grown: the bytes that are copied are all in its array, and the new array has
room behind them. -/
theorem Fits.growth_makes_room {b : Buffer} (h : b.Fits) :
    b.written.size = b.position ∧ b.position < b.grown.capacity := by
  refine ⟨?_, position_lt_grown h.position_le⟩
  rw [← Array.length_toList, length_written h.position_le]

theorem grown_fits {b : Buffer} (h : b.position ≤ b.capacity)
    (hgrow : 2 * b.capacity ≤ Limits.maxAllocation) : b.grown.Fits := by
  constructor
  · rw [grown_position]
    exact Nat.le_of_lt (position_lt_grown h)
  · rw [grown_capacity, grownCapacity]
    exact Nat.max_le.mpr ⟨hgrow, by decide⟩

theorem grow_achieves {b : Buffer} {post : Unit → Buffer → Prop} (h : b.position ≤ b.capacity)
    (hpost : b.grown.Fits → post () b.grown) : Achieves grow b post := by
  by_cases hgrow : 2 * b.capacity ≤ Limits.maxAllocation
  · exact Achieves.of_ok (if_pos hgrow) (hpost (grown_fits h hgrow))
  · exact Achieves.of_error (if_neg hgrow) rfl

theorem withCapacity_delivers (capacity : Nat) :
    Delivers (withCapacity capacity) fun b => b.Fits ∧ b.position = 0 := by
  unfold withCapacity
  by_cases h : capacity ≤ Limits.maxAllocation
  · rw [if_pos h]
    refine ⟨⟨Nat.zero_le _, ?_⟩, rfl⟩
    simpa [Buffer.capacity] using h
  · rw [if_neg h]
    rfl

theorem written_of_position_zero {b : Buffer} (h : b.position = 0) : b.written.toList = [] := by
  rw [toList_written, h, List.take_zero]

/-- Growing to a size keeps the position and what is written. -/
theorem growTo_achieves (needed : Nat) {b : Buffer} (h : b.Fits) :
    Achieves (growTo needed) b fun _ b' =>
      b'.Fits ∧ b'.position = b.position ∧ b'.written = b.written ∧ needed ≤ b'.capacity := by
  -- One case for each way out of the loop, and one for another round of it.
  fun_induction growTo needed b with
  | case1 b hlt hgrow ih =>
      have hrun : growTo needed b = growTo needed b.grown := by
        rw [growTo, if_pos hlt, if_pos hgrow]
      have hgrown := ih (grown_fits h.position_le hgrow)
      rw [grown_position, grown_written h.position_le] at hgrown
      exact Achieves.of_eq hrun hgrown
  | case2 b hlt hgrow =>
      exact Achieves.of_error (by rw [growTo, if_pos hlt, if_neg hgrow]) rfl
  | case3 b hle =>
      exact Achieves.of_ok (by rw [growTo, if_neg hle]) ⟨h, rfl, rfl, Nat.le_of_not_lt hle⟩

theorem ensure_achieves (count : Nat) {b : Buffer} (h : b.Fits)
    (hcount : b.position + count < Limits.addressBound) :
    Achieves (ensure count) b fun _ b' =>
      b'.Fits ∧ b'.position = b.position ∧ b'.written = b.written ∧
        b.position + count ≤ b'.capacity := by
  exact Achieves.of_eq (if_pos hcount) (growTo_achieves (b.position + count) h)

theorem Fits.position_add_lt {b : Buffer} (h : b.Fits) (count : Nat)
    (hcount : count ≤ Limits.maxAllocation) : b.position + count < Limits.addressBound := by
  have hposition := h.position_le
  have hcapacity := h.capacity_le
  simp only [Limits.maxAllocation, Limits.addressBound] at *
  omega

theorem ensureOne_achieves {b : Buffer} (h : b.Fits) :
    Achieves (ensure 1) b fun _ b' =>
      b'.Fits ∧ b'.position = b.position ∧ b'.written = b.written ∧ b'.position < b'.capacity := by
  refine (ensure_achieves 1 h (h.position_add_lt 1 (by decide))).mono ?_
  rintro _ b' ⟨hfits, hposition, hwritten, hroom⟩
  rw [← hposition] at hroom
  exact ⟨hfits, hposition, hwritten, hroom⟩

theorem growIfFull_achieves {b : Buffer} (h : b.Fits) :
    Achieves growIfFull b fun _ b' =>
      b'.Fits ∧ b'.position = b.position ∧ b'.written = b.written ∧ b'.position < b'.capacity := by
  by_cases hfull : b.isFull = true
  · refine Achieves.of_eq (if_pos hfull) (grow_achieves h.position_le fun hfits => ?_)
    have hroom : b.grown.position < b.grown.capacity := by
      rw [grown_position]
      exact h.growth_makes_room.2
    exact ⟨hfits, rfl, grown_written h.position_le, hroom⟩
  · exact Achieves.of_ok (if_neg hfull) ⟨h, rfl, rfl, by simpa [isFull] using hfull⟩

theorem advance_achieves {b : Buffer} (h : b.Fits) (hlt : b.position < b.capacity) :
    Achieves advance b fun _ b' => b' = b.advanced ∧ b'.Fits := by
  have hstepped : b.stepped.Fits := ⟨hlt, h.capacity_le⟩
  refine Achieves.of_eq (show advance b = growIfFull b.stepped from rfl) ?_
  rw [advanced]
  by_cases hfull : b.stepped.isFull = true
  · rw [if_pos hfull]
    exact Achieves.of_eq (if_pos hfull) (grow_achieves hstepped.position_le fun h => ⟨rfl, h⟩)
  · rw [if_neg hfull]
    exact Achieves.of_ok (if_neg hfull) ⟨rfl, hstepped⟩

theorem advanced_written {b : Buffer} {byte : UInt8} (h : b.position < b.capacity)
    (hbyte : b.current? = some byte) :
    b.advanced.written.toList = b.written.toList ++ [byte] := by
  rw [← stepped_written hbyte, advanced]
  split
  · rw [grown_written (show b.stepped.position ≤ b.stepped.capacity from h)]
  · rfl

theorem advanced_position_lt {b : Buffer} (h : b.position < b.capacity) :
    b.advanced.position < b.advanced.capacity := by
  unfold advanced
  split
  · have hstepped : b.stepped.position ≤ b.stepped.capacity := h
    rw [grown_position]
    exact position_lt_grown hstepped
  · next hfull =>
      rw [isFull, decide_eq_true_eq] at hfull
      omega

/-! ## Appending -/

theorem put_ok (byte : UInt8) {b : Buffer} (h : b.position < b.capacity) :
    put byte b = .ok () (b.mapCurrent fun _ => byte).stepped := by
  have hstore : storeCurrent byte b = .ok () (b.mapCurrent fun _ => byte) := modifyCurrent_ok h
  rw [put, bind_of_ok hstore]
  rfl

theorem put_written {byte : UInt8} {b : Buffer} (h : b.position < b.capacity) :
    (b.mapCurrent fun _ => byte).stepped.written.toList = b.written.toList ++ [byte] := by
  rw [stepped_written (stored_current? h byte), mapCurrent_written]

theorem forM_put_ok {bytes : List UInt8} {b : Buffer}
    (h : b.position + bytes.length ≤ b.capacity) : bytes.forM put b = .ok () (b.filled bytes) := by
  induction bytes generalizing b with
  | nil => rfl
  | cons byte bytes ih =>
      rw [List.length_cons] at h
      have hput := put_ok byte (show b.position < b.capacity by omega)
      have hrest := ih (b := (b.mapCurrent fun _ => byte).stepped) (by simp; omega)
      change (put byte >>= fun _ => bytes.forM put) b = _
      rw [bind_of_ok hput, hrest, filled]

@[simp] theorem filled_capacity (bytes : List UInt8) (b : Buffer) :
    (b.filled bytes).capacity = b.capacity := by
  induction bytes generalizing b with
  | nil => rfl
  | cons byte bytes ih => simp [filled, ih]

@[simp] theorem filled_position (bytes : List UInt8) (b : Buffer) :
    (b.filled bytes).position = b.position + bytes.length := by
  induction bytes generalizing b with
  | nil => rfl
  | cons byte bytes ih =>
      rw [filled, ih, stepped_position, mapCurrent_position, List.length_cons]
      omega

theorem filled_append (front back : List UInt8) (b : Buffer) :
    b.filled (front ++ back) = (b.filled front).filled back := by
  induction front generalizing b with
  | nil => rfl
  | cons byte front ih => exact ih _

theorem Fits.filled {b : Buffer} (h : b.Fits) {bytes : List UInt8}
    (hroom : b.position + bytes.length ≤ b.capacity) : (b.filled bytes).Fits := by
  constructor
  · rwa [filled_position, filled_capacity]
  · rw [filled_capacity]
    exact h.capacity_le

theorem filled_written {bytes : List UInt8} {b : Buffer}
    (h : b.position + bytes.length ≤ b.capacity) :
    (b.filled bytes).written.toList = b.written.toList ++ bytes := by
  induction bytes generalizing b with
  | nil => simp [filled]
  | cons byte bytes ih =>
      rw [List.length_cons] at h
      rw [filled, ih (by simp; omega), put_written (by omega), List.append_assoc]
      rfl

theorem appendByte_achieves (byte : UInt8) {b : Buffer} (h : b.Fits) :
    Achieves (appendByte byte) b fun _ b' =>
      b'.Fits ∧ b'.written.toList = b.written.toList ++ [byte] := by
  refine (growIfFull_achieves h).bind ?_
  rintro _ b' ⟨hfits, hposition, hwritten, hlt⟩
  refine Achieves.of_ok (put_ok byte hlt) ⟨⟨?_, ?_⟩, ?_⟩
  · rw [stepped_position, stepped_capacity, mapCurrent_position, mapCurrent_capacity]
    omega
  · rw [stepped_capacity, mapCurrent_capacity]
    exact hfits.capacity_le
  · rw [put_written hlt, hwritten]

theorem appendBytes_achieves (bytes : List UInt8) {b : Buffer} (h : b.Fits)
    (hcount : b.position + bytes.length < Limits.addressBound) :
    Achieves (appendBytes bytes) b fun _ b' =>
      b'.Fits ∧ b'.written.toList = b.written.toList ++ bytes := by
  refine (ensure_achieves bytes.length h hcount).bind ?_
  rintro _ b' ⟨hfits, hposition, hwritten, hle⟩
  rw [← hposition] at hle
  exact Achieves.of_ok (forM_put_ok hle)
    ⟨hfits.filled hle, by rw [filled_written hle, hwritten]⟩

end WordStream.Buffer
