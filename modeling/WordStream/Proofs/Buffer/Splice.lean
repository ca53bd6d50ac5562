import WordStream.Proofs.Buffer
import WordStream.Stream.Writing

/-!
# What a write leaves of an array

Bytes that are put where there is room for them take the place of the ones that were there, and the array
keeps all others.  Growth keeps only what lies before the position.  Which of the two happens is decided
by the room that is asked for, and that can be more than what is written takes up.
-/

namespace WordStream

/-- A list with as many of its bytes replaced, from a position on, as are put there. -/
def spliced (old : List UInt8) (position : Nat) (new : List UInt8) : List UInt8 :=
  old.take position ++ new ++ old.drop (position + new.length)

@[simp] theorem spliced_nil (old : List UInt8) (position : Nat) : spliced old position [] = old := by
  simp [spliced]

/-- Bytes can be put one after the other. -/
theorem spliced_cons {old : List UInt8} {position : Nat} (h : position < old.length) (byte : UInt8)
    (new : List UInt8) :
    spliced (old.set position byte) (position + 1) new = spliced old position (byte :: new) := by
  have htake : (old.set position byte).take (position + 1) = old.take position ++ [byte] := by
    rw [List.take_set, List.take_succ_eq_append_getElem h, List.set_append_right]
    · simp [Nat.min_eq_left (Nat.le_of_lt h)]
    · exact List.length_take_le _ _
  have hdrop : (old.set position byte).drop (position + 1 + new.length) =
      old.drop (position + (byte :: new).length) := by
    rw [List.drop_set_of_lt (by omega), List.length_cons]
    congr 1
    omega
  rw [spliced, htake, hdrop, spliced, List.append_assoc (old.take position)]
  rfl

/-- Cut behind the bytes that are put, a list keeps them. -/
theorem take_spliced {old new : List UInt8} {position count : Nat}
    (h : position + new.length ≤ count) (hcount : count ≤ old.length) :
    (spliced old position new).take count = spliced (old.take count) position new := by
  have hfront : (old.take position ++ new).length = position + new.length := by
    rw [List.length_append, List.length_take]
    omega
  rw [spliced, spliced, List.take_append, hfront, List.take_of_length_le (by omega), List.take_take,
    Nat.min_eq_left (by omega), List.drop_take]

/-- Cut behind the bytes that are put, a list in which only zeros follow on them keeps these. -/
theorem take_append_zeros {front : List UInt8} {count : Nat} (zeros : Nat)
    (h : front.length ≤ count) (hcount : count ≤ front.length + zeros) :
    (front ++ List.replicate zeros 0).take count =
      front ++ List.replicate (count - front.length) 0 := by
  rw [List.take_append, List.take_of_length_le h, List.take_replicate, Nat.min_eq_left (by omega)]

namespace Buffer

theorem toList_mapCurrent (byte : UInt8) {b : Buffer} (h : b.position < b.capacity) :
    (b.mapCurrent fun _ => byte).bytes.toList = b.bytes.toList.set b.position byte := by
  obtain ⟨old, hold⟩ := exists_current h
  rw [mapCurrent_eq_store hold, Array.toList_setIfInBounds]

/-- Bytes that fit are spliced into the array. -/
theorem toList_filled {bytes : List UInt8} {b : Buffer}
    (h : b.position + bytes.length ≤ b.capacity) :
    (b.filled bytes).bytes.toList = spliced b.bytes.toList b.position bytes := by
  -- Induction on the bytes: each is put at the position that the one before it has left.
  induction bytes generalizing b with
  | nil => exact (spliced_nil _ _).symm
  | cons byte bytes ih =>
      rw [List.length_cons] at h
      have hroom : b.position < b.capacity := by omega
      have hrest := ih (b := (b.mapCurrent fun _ => byte).stepped) (by simp; omega)
      have hlength : b.position < b.bytes.toList.length := by
        rw [Array.length_toList]
        exact hroom
      rw [filled, hrest, ← spliced_cons hlength, ← toList_mapCurrent byte hroom]
      rfl

/-- The array after a growth: what lies before the position, and zeros. -/
theorem toList_grown {b : Buffer} (h : b.position ≤ b.capacity) :
    b.grown.bytes.toList =
      b.bytes.toList.take b.position ++
        List.replicate (grownCapacity b.capacity - b.position) 0 := by
  have hwritten : b.written.size = b.position := by
    rw [← Array.length_toList, length_written h]
  rw [grown, Array.toList_append, toList_written, Array.toList_replicate, hwritten]

/-- The array after a growth and bytes that fit afterwards, which only zeros follow. -/
theorem toList_filled_grown {bytes : List UInt8} {b : Buffer} (h : b.position ≤ b.capacity)
    (hroom : b.position + bytes.length ≤ grownCapacity b.capacity) :
    (b.grown.filled bytes).bytes.toList =
      b.bytes.toList.take b.position ++ bytes ++
        List.replicate ((b.grown.filled bytes).capacity - (b.grown.filled bytes).position) 0 := by
  have hkept : (b.bytes.toList.take b.position).length = b.position := by
    rw [List.length_take, Array.length_toList]
    exact Nat.min_eq_left h
  rw [toList_filled (by simpa using hroom), toList_grown h, spliced, grown_position,
    List.take_left' hkept, List.drop_append, hkept, List.drop_of_length_le (by omega),
    List.nil_append, List.drop_replicate, filled_capacity, grown_capacity, filled_position,
    grown_position]
  congr 2
  omega

/-! ## At another position -/

/-- The first bytes of an array after others have been put among them. -/
theorem take_filled_movedTo {bytes : List UInt8} {b : Buffer} {position count : Nat}
    (h : position + bytes.length ≤ count) (hcount : count ≤ b.capacity) :
    ((b.movedTo position).filled bytes).bytes.toList.take count =
      spliced (b.bytes.toList.take count) position bytes := by
  have hsize : count ≤ b.bytes.toList.length := by
    rw [Array.length_toList]
    exact hcount
  have hfits : (b.movedTo position).position + bytes.length ≤ (b.movedTo position).capacity :=
    Nat.le_trans h hcount
  rw [toList_filled hfits, ← take_spliced h hsize]
  rfl

/-- The first bytes of an array that has lost all of them but those before the ones that are put. -/
theorem take_filled_grown {bytes : List UInt8} {b : Buffer} {position count : Nat}
    (h : position + bytes.length ≤ count) (hcount : count ≤ b.capacity) :
    ((b.movedTo position).grown.filled bytes).bytes.toList.take count =
      (b.bytes.toList.take count).take position ++ bytes ++
        List.replicate (count - (position + bytes.length)) 0 := by
  have hgrown := capacity_lt_grownCapacity b.capacity
  have hinside : (b.movedTo position).position ≤ (b.movedTo position).capacity := by
    rw [movedTo_position, movedTo_capacity]
    omega
  have hroom : (b.movedTo position).position + bytes.length ≤
      grownCapacity (b.movedTo position).capacity := by
    rw [movedTo_position, movedTo_capacity]
    omega
  have hfront : (b.bytes.toList.take position ++ bytes).length = position + bytes.length := by
    rw [List.length_append, List.length_take, Array.length_toList]
    exact congrArg (· + _) (Nat.min_eq_left hinside)
  rw [toList_filled_grown hinside hroom, filled_capacity, grown_capacity, filled_position,
    grown_position, List.take_take, Nat.min_eq_left (by omega), ← hfront,
    ← take_append_zeros (grownCapacity b.capacity - (position + bytes.length)) (by omega) (by omega)]
  rfl

/-! ## Room -/

theorem ensure_of_room {count : Nat} {b : Buffer} (h : b.Fits)
    (hroom : b.position + count ≤ b.capacity) : ensure count b = .ok () b := by
  have hcount := h.capacity_le
  have hbound : b.position + count < Limits.addressBound := by
    simp only [Limits.maxAllocation, Limits.addressBound] at *
    omega
  rw [ensure, if_pos hbound, growTo, if_neg (by omega)]

/-- A growth makes room for the longest word, wherever the position is. -/
theorem longest_le_grownCapacity {b : Buffer} (h : b.position ≤ b.capacity) :
    b.position + Limits.maxStandardBytes ≤ grownCapacity b.capacity := by
  simp only [grownCapacity, Limits.minGrowth, Limits.maxWordBytes, Limits.maxStandardBytes,
    Limits.maxSparseBytes]
  omega

theorem ensure_of_full {b : Buffer} (h : b.Fits)
    (hfull : b.capacity < b.position + Limits.maxStandardBytes)
    (hgrow : 2 * b.capacity ≤ Limits.maxAllocation) :
    ensure Limits.maxStandardBytes b = .ok () b.grown := by
  have hbound := h.position_add_lt Limits.maxStandardBytes (by decide)
  have henough : b.position + Limits.maxStandardBytes ≤ b.grown.capacity := by
    rw [grown_capacity]
    exact longest_le_grownCapacity h.position_le
  rw [ensure, if_pos hbound, growTo, if_pos hfull, if_pos hgrow, growTo,
    if_neg (Nat.not_lt_of_le henough)]

theorem advance_of_room {b : Buffer} (h : b.position + 1 < b.capacity) :
    advance b = .ok () b.stepped := by
  have hroom : ¬ b.stepped.isFull = true := by
    rw [isFull, decide_eq_true_eq]
    exact Nat.not_le_of_lt h
  exact if_neg hroom

theorem appendBytes_of_room {bytes : List UInt8} {b : Buffer} (h : b.Fits)
    (hroom : b.position + bytes.length ≤ b.capacity) :
    appendBytes bytes b = .ok () (b.filled bytes) := by
  rw [appendBytes, bind_of_ok (ensure_of_room h hroom)]
  exact forM_put_ok hroom

theorem appendByte_of_room (byte : UInt8) {b : Buffer} (h : b.position < b.capacity) :
    appendByte byte b = .ok () (b.filled [byte]) := by
  have hroom : growIfFull b = .ok () b := if_neg (by simpa [isFull] using h)
  rw [appendByte, bind_of_ok hroom]
  exact put_ok byte h

theorem appendByte_of_full (byte : UInt8) {b : Buffer} (h : b.position = b.capacity)
    (hgrow : 2 * b.capacity ≤ Limits.maxAllocation) :
    appendByte byte b = .ok () (b.grown.filled [byte]) := by
  have hfull : growIfFull b = .ok () b.grown := by
    rw [growIfFull, if_pos (by simp [isFull, h]), grow, if_pos hgrow]
  have hlt := capacity_lt_grownCapacity b.capacity
  rw [appendByte, bind_of_ok hfull]
  exact put_ok byte (by rw [grown_position, grown_capacity, h]; exact hlt)

end Buffer

/-! ## Patches -/

section

variable {σ : Type} [WordWriter σ]

/-- Move to another position of a writer, write words there, and move back to where the output ended. -/
def patch (length : σ → Nat) (setPosition : Nat → WriteM σ Unit) (position : Nat)
    (words : List UInt32) : WriteM σ Unit := do
  let last := length (← get)
  setPosition position
  writeWords words
  setPosition last

theorem patch_ok {length : σ → Nat} {setPosition : Nat → WriteM σ Unit} {position : Nat}
    {words : List UInt32} {s moved patched back : σ} (hmove : setPosition position s = .ok () moved)
    (hwrite : writeWords words moved = .ok () patched)
    (hback : setPosition (length s) patched = .ok () back) :
    patch length setPosition position words s = .ok () back := by
  have hget : (get : WriteM σ σ) s = .ok s s := rfl
  rw [patch, bind_of_ok hget, bind_of_ok hmove, bind_of_ok hwrite, hback]

end

end WordStream
