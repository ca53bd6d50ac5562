import WordStream.Proofs.Buffer.Splice
import WordStream.Proofs.Sparse.Footprint

/-!
# Writes at an earlier position, in the sparse format

Between two bytes a writer can move back and write words over its output.  Words that are not zero take up
whole bytes.  They are put in the place of as many others, and where they end before the output did, no
byte is missing and the buffer has no cause to grow.
-/

namespace WordStream.Sparse

namespace Writer

theorem length_of_aligned {w : Writer} (hbit : w.bit.val = 0) : w.length = w.buffer.position := by
  rw [length, if_pos hbit, Nat.add_zero]

theorem align_of_aligned {w : Writer} (hbit : w.bit.val = 0) : align w = .ok w.buffer.position w := by
  have hget : (get : WriteM Writer Writer) w = .ok w w := rfl
  rw [align, bind_of_ok hget, if_neg (not_not_intro hbit)]
  rfl

theorem setPosition_of_aligned {w : Writer} {position : Nat} (h : w.buffer.Fits)
    (hbit : w.bit.val = 0) (hposition : position < w.capacity) :
    setPosition position w = .ok () ⟨w.buffer.movedTo position, w.bit⟩ := by
  have halign : discard align w = .ok () w := discard_of_ok (align_of_aligned hbit)
  have hmove : onBuffer (Buffer.setPosition position) w = .ok () ⟨w.buffer.movedTo position, w.bit⟩ :=
    onBuffer_ok (Buffer.setPosition_ok (Nat.le_of_lt hposition))
  rw [setPosition, bind_of_ok halign, bind_of_ok hmove]
  exact onBuffer_ok (Buffer.ensure_of_room (h.movedTo (Nat.le_of_lt hposition)) hposition)

theorem writeLogicalByte_of_room (byte : UInt8) {w : Writer} (hbit : w.bit.val = 0)
    (hroom : w.buffer.position + 1 < w.buffer.capacity) :
    writeLogicalByte byte w = .ok () ⟨w.buffer.filled [byte], w.bit⟩ := by
  have hstore := Buffer.modifyCurrent_ok (f := fun _ => byte) (Nat.lt_of_succ_lt hroom)
  have hadvance : Buffer.advance (w.buffer.mapCurrent fun _ => byte) = .ok () (w.buffer.filled [byte]) :=
    Buffer.advance_of_room (by simpa using hroom)
  rw [writeLogicalByte_of_aligned byte hbit]
  exact onBuffer_ok ((bind_of_ok hstore).trans hadvance)

theorem forM_writeLogicalByte_of_room {bytes : List UInt8} {w : Writer} (hbit : w.bit.val = 0)
    (hroom : w.buffer.position + bytes.length < w.buffer.capacity) :
    bytes.forM writeLogicalByte w = .ok () ⟨w.buffer.filled bytes, w.bit⟩ := by
  induction bytes generalizing w with
  | nil => rfl
  | cons byte bytes ih =>
      rw [List.length_cons] at hroom
      have hbyte := writeLogicalByte_of_room byte hbit (by omega)
      have hrest := ih (w := ⟨w.buffer.filled [byte], w.bit⟩) hbit (by simp; omega)
      change (writeLogicalByte byte >>= fun _ => bytes.forM writeLogicalByte) w = _
      rw [bind_of_ok hbyte, hrest]
      rfl

theorem writeWords_of_room {words : List UInt32} {w : Writer} (hwords : ∀ word ∈ words, word ≠ 0)
    (hbit : w.bit.val = 0)
    (hroom : w.buffer.position + (words.flatMap logicalBytes).length < w.buffer.capacity) :
    writeWords words w = .ok () ⟨w.buffer.filled (words.flatMap logicalBytes), w.bit⟩ := by
  induction words generalizing w with
  | nil => rfl
  | cons word words ih =>
      rw [List.flatMap_cons, List.length_append] at hroom
      have hword : (writeWord word : WriteM Writer Unit) w =
          .ok () ⟨w.buffer.filled (logicalBytes word), w.bit⟩ := by
        change (if word = 0 then writeZero else (logicalBytes word).forM writeLogicalByte) w = _
        rw [if_neg (hwords word List.mem_cons_self)]
        exact forM_writeLogicalByte_of_room hbit (by omega)
      have hrest := ih (w := ⟨w.buffer.filled (logicalBytes word), w.bit⟩)
        (fun v hv => hwords v (List.mem_cons_of_mem _ hv)) hbit (by
          rw [Buffer.filled_position, Buffer.filled_capacity]
          omega)
      change (writeWord word >>= fun _ => writeWords words) w = _
      rw [bind_of_ok hword, hrest, List.flatMap_cons, Buffer.filled_append]

/-- Where words end before the output did, they are put in the place of other bytes, and no more. -/
theorem patch_of_aligned {w : Writer} {position : Nat} {words : List UInt32} (h : w.Sound)
    (hbit : w.bit.val = 0) (hwords : ∀ word ∈ words, word ≠ 0)
    (hinside : position + (words.flatMap logicalBytes).length ≤ w.length) :
    patch length setPosition position words w = .ok ()
      ⟨((w.buffer.movedTo position).filled (words.flatMap logicalBytes)).movedTo w.length, w.bit⟩ := by
  have hroom := h.room
  have hlength := length_of_aligned hbit
  have hwrite := writeWords_of_room (w := ⟨w.buffer.movedTo position, w.bit⟩) hwords hbit (by
    rw [Buffer.movedTo_position, Buffer.movedTo_capacity]
    omega)
  have hfits : ((w.buffer.movedTo position).filled (words.flatMap logicalBytes)).Fits :=
    (h.fits.movedTo (by omega)).filled (by
      rw [Buffer.movedTo_position, Buffer.movedTo_capacity]
      omega)
  refine patch_ok (setPosition_of_aligned h.fits hbit ?_) hwrite
    (setPosition_of_aligned hfits hbit ?_)
  · rw [capacity]
    omega
  · rw [capacity, Buffer.filled_capacity, Buffer.movedTo_capacity]
    omega

theorem patched_cursor {w : Writer} (hbit : w.bit.val = 0) (b : Buffer) :
    cursor ⟨b.movedTo w.length, w.bit⟩ = w.cursor := by
  rw [cursor, cursor, Buffer.movedTo_position, length_of_aligned hbit]

theorem patched_toBytes {w : Writer} {position : Nat} {bytes : List UInt8} (h : w.Sound)
    (hbit : w.bit.val = 0) (hinside : position + bytes.length ≤ w.length) :
    (toBytes ⟨((w.buffer.movedTo position).filled bytes).movedTo w.length, w.bit⟩).toList =
      spliced w.toBytes.toList position bytes := by
  have hlength := length_of_aligned hbit
  have hcapacity : w.length ≤ w.buffer.capacity := length_le_capacity h
  have hpatched : length ⟨((w.buffer.movedTo position).filled bytes).movedTo w.length, w.bit⟩ =
      w.length := length_of_aligned hbit
  rw [toBytes_eq_take, toBytes_eq_take w, ← Buffer.take_filled_movedTo hinside hcapacity, hpatched]
  rfl

end Writer

/-- From wherever operations have led, and unless an allocation is refused, a call that is no move keeps
all that its footprint leaves out.  Words over earlier output, none of them zero, between two bytes and
before the end, then change nothing but the bytes that they take the place of. -/
theorem writes_keep_the_rest (capacity : Nat) (operations : List Operation) :
    (∀ call : Call, call.isMove = false →
      AllocationGranted (around (Writer.withCapacity capacity) Operation.run operations
        (discard call.run)) →
      ∃ w w', around (Writer.withCapacity capacity) Operation.run operations (discard call.run) =
          .ok (w, w') ∧
        call.Footprint w w') ∧
    ∀ (position : Nat) (words : List UInt32), (∀ word ∈ words, word ≠ 0) →
      AllocationGranted (history (Writer.withCapacity capacity) Operation.run operations) →
      ∃ shown w, history (Writer.withCapacity capacity) Operation.run operations = .ok (shown, w) ∧
        (w.cursor.bit.val = 0 → position + (words.flatMap logicalBytes).length ≤ w.length →
          ∃ w', patch Writer.length Writer.setPosition position words w = .ok () w' ∧
            w'.cursor = w.cursor ∧ w'.capacity = w.capacity ∧
            w'.toBytes.toList =
              spliced w.toBytes.toList position (words.flatMap logicalBytes)) := by
  constructor
  · intro call hmove hgranted
    have hact : ∀ w : Writer, w.Sound →
        Achieves (discard call.run) w fun _ w' => call.Footprint w w' := fun w hw =>
      Achieves.map (call.run_footprint hmove hw)
    obtain ⟨⟨w, w'⟩, hok, -, hfootprint⟩ :=
      (Operation.around_delivers capacity operations hact).exists_ok hgranted
    exact ⟨w, w', hok, hfootprint⟩
  · intro position words hwords hgranted
    have hstart : Delivers (Writer.withCapacity capacity) Writer.Sound :=
      (Writer.withCapacity_delivers capacity).mono_of_ok fun _ _ hw => hw.1
    have hrun := hstart.history (fun operation _ hw => operation.caught_run_achieves hw) operations
    obtain ⟨⟨shown, w⟩, hok, hw, -⟩ := hrun.exists_ok hgranted
    refine ⟨shown, w, hok, fun hbit hinside => ?_⟩
    refine ⟨_, Writer.patch_of_aligned hw hbit hwords hinside, Writer.patched_cursor hbit _, ?_,
      Writer.patched_toBytes hw hbit hinside⟩
    rw [Writer.capacity, Buffer.movedTo_capacity, Buffer.filled_capacity, Buffer.movedTo_capacity]
    rfl

/-- Aligning after a zero that was written over a word of ones, and two words over the middle of the
same. -/
theorem writes_keep_the_rest_of_a_word :
    (∃ w w', around (Writer.withCapacity 0) Operation.run
        [.call (.word 0xFFFFFFFF), .call (.setPosition 1), .call .zero] (discard Call.align.run) =
          .ok (w, w') ∧
      Call.Footprint .align w w') ∧
    ∃ shown w w', history (Writer.withCapacity 0) Operation.run [.call (.word 0xFFFFFFFF)] =
        .ok (shown, w) ∧
      patch Writer.length Writer.setPosition 1 [1, 300] w = .ok () w' ∧
      w'.toBytes.toList = spliced w.toBytes.toList 1 [0x81, 0xEC, 0x04] := by
  constructor
  · exact (writes_keep_the_rest 0 [.call (.word 0xFFFFFFFF), .call (.setPosition 1), .call .zero]).1
      .align rfl (by decide +kernel)
  · obtain ⟨shown, w, hrun, hpatch⟩ := (writes_keep_the_rest 0 [.call (.word 0xFFFFFFFF)]).2 1 [1, 300]
      (by simp) (by decide +kernel)
    have hplace : (history (Writer.withCapacity 0) Operation.run
        [.call (.word 0xFFFFFFFF)]).toOption.map (fun x => (x.2.cursor.bit.val, x.2.length)) =
          some (0, 5) := by
      decide +kernel
    have hbytes : [1, 300].flatMap logicalBytes = [0x81, 0xEC, 0x04] := by decide +kernel
    rw [hrun] at hplace
    obtain ⟨hbit, hlength⟩ := Prod.mk.inj (Option.some.inj hplace)
    rw [hbytes] at hpatch
    obtain ⟨w', hpatched, -, -, hshown⟩ := hpatch hbit (by rw [show w.length = 5 from hlength]; decide)
    exact ⟨shown, w, w', hrun, hpatched, hshown⟩

end WordStream.Sparse
