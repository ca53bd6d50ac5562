import WordStream.Proofs.Buffer.Splice
import WordStream.Proofs.Standard.Spelling

/-!
# Writes at an earlier position, in the standard format

A word is written after room has been made for the longest one.  Where that room is there, the word takes
the place of as many bytes as it is long.  Where it is not, the buffer grows and loses all that followed,
even what the word would not have reached.  A single byte asks for no more room than it takes up.
-/

namespace WordStream

namespace Varint

theorem write_of_room {word : UInt32} {b : Buffer} (h : b.Fits)
    (hroom : b.position + Limits.maxStandardBytes ≤ b.capacity) :
    write word b = .ok () (b.filled (encode word)) := by
  have hlength := length_encode_le word
  rw [write, bind_of_ok (Buffer.ensure_of_room h hroom)]
  exact Buffer.appendBytes_of_room h (by omega)

theorem longest_fits_grown {b : Buffer} (h : b.position ≤ b.capacity) (word : UInt32) :
    b.position + (encode word).length ≤ Buffer.grownCapacity b.capacity :=
  Nat.le_trans (Nat.add_le_add_left (length_encode_le word) _) (Buffer.longest_le_grownCapacity h)

theorem write_of_full {word : UInt32} {b : Buffer} (h : b.Fits)
    (hfull : b.capacity < b.position + Limits.maxStandardBytes)
    (hgrow : 2 * b.capacity ≤ Limits.maxAllocation) :
    write word b = .ok () (b.grown.filled (encode word)) := by
  rw [write, bind_of_ok (Buffer.ensure_of_full h hfull hgrow)]
  refine Buffer.appendBytes_of_room (Buffer.grown_fits h.position_le hgrow) ?_
  rw [Buffer.grown_position, Buffer.grown_capacity]
  exact longest_fits_grown h.position_le word

end Varint

namespace Standard.Writer

theorem toList_toBytes (w : Writer) : w.toBytes.toList = w.buffer.bytes.toList.take w.length :=
  Buffer.toList_written w.buffer

/-- A word that is written at an earlier position, and a move back to the end of the output. -/
theorem patch_word_ok {w : Writer} {position : Nat} {word : UInt32} {b : Buffer}
    (h : w.buffer.Fits) (hposition : position ≤ w.capacity) (hcapacity : w.capacity ≤ b.capacity)
    (hwrite : Varint.write word (w.buffer.movedTo position) = .ok () b) :
    patch length setPosition position [word] w = .ok () ⟨b.movedTo w.length⟩ := by
  have hword : (writeWord word : WriteM Writer Unit) ⟨w.buffer.movedTo position⟩ = .ok () ⟨b⟩ :=
    onBuffer_ok hwrite
  have hwords : writeWords [word] (Writer.mk (w.buffer.movedTo position)) = .ok () ⟨b⟩ := by
    change (writeWord word >>= fun _ => pure ()) (Writer.mk (w.buffer.movedTo position)) = _
    rw [bind_of_ok hword]
    rfl
  exact patch_ok (setPosition_ok hposition) hwords
    (setPosition_ok (Nat.le_trans h.position_le hcapacity))

theorem patch_of_room {w : Writer} {position : Nat} {word : UInt32} (h : w.buffer.Fits)
    (hinside : position + (Varint.encode word).length ≤ w.length)
    (hroom : position + Limits.maxStandardBytes ≤ w.capacity) :
    ∃ w', patch length setPosition position [word] w = .ok () w' ∧ w'.length = w.length ∧
      w'.toBytes.toList = spliced w.toBytes.toList position (Varint.encode word) := by
  have hfits := h.movedTo (Nat.le_trans (Nat.le_add_right _ _) hroom)
  refine ⟨_, patch_word_ok h hfits.position_le ?_ (Varint.write_of_room hfits hroom), rfl, ?_⟩
  · rw [Buffer.filled_capacity, Buffer.movedTo_capacity]
    exact Nat.le_refl _
  · rw [toList_toBytes, toList_toBytes, ← Buffer.take_filled_movedTo hinside h.position_le]
    rfl

theorem patch_of_full {w : Writer} {position : Nat} {word : UInt32} (h : w.buffer.Fits)
    (hinside : position + (Varint.encode word).length ≤ w.length)
    (hfull : w.capacity < position + Limits.maxStandardBytes)
    (hgrow : 2 * w.capacity ≤ Limits.maxAllocation) :
    ∃ w', patch length setPosition position [word] w = .ok () w' ∧ w'.length = w.length ∧
      w'.toBytes.toList = w.toBytes.toList.take position ++ Varint.encode word ++
        List.replicate (w.length - (position + (Varint.encode word).length)) 0 := by
  have hlast : w.length ≤ w.capacity := h.position_le
  have hfits := h.movedTo (show position ≤ w.buffer.capacity from by
    unfold capacity at hlast
    omega)
  refine ⟨_, patch_word_ok h hfits.position_le ?_ (Varint.write_of_full hfits hfull hgrow), rfl, ?_⟩
  · rw [Buffer.filled_capacity, Buffer.grown_capacity, Buffer.movedTo_capacity]
    exact Nat.le_of_lt (Buffer.capacity_lt_grownCapacity w.capacity)
  · rw [toList_toBytes, toList_toBytes, ← Buffer.take_filled_grown hinside h.position_le]
    rfl

end Standard.Writer

/-- What a word or a byte leaves of a buffer, whatever lies behind the position.  Where the longest word
would fit, a word is spliced into the array.  Where it would not, the array doubles, and the word is
followed by nothing but zeros, even if it would have fitted itself.  A byte is spliced in, unless the array
is full; then it follows on all of it.  So a word that is put over earlier output changes no byte behind
itself in the one case, and turns all of them into zeros in the other. -/
theorem Standard.writes_keep_the_rest_where_the_longest_fits :
    (∀ (b : Buffer) (word : UInt32), b.Fits → b.position + 5 ≤ b.capacity →
      ∃ b', Varint.write word b = .ok () b' ∧ b'.capacity = b.capacity ∧
        b'.position = b.position + (Varint.encode word).length ∧
        b'.bytes.toList = spliced b.bytes.toList b.position (Varint.encode word)) ∧
    (∀ (b : Buffer) (word : UInt32), b.Fits → b.capacity < b.position + 5 →
      2 * b.capacity ≤ Limits.maxAllocation →
      ∃ b', Varint.write word b = .ok () b' ∧ b'.capacity = max (2 * b.capacity) 10 ∧
        b'.position = b.position + (Varint.encode word).length ∧
        b'.bytes.toList = b.bytes.toList.take b.position ++ Varint.encode word ++
          List.replicate (b'.capacity - b'.position) 0) ∧
    (∀ (b : Buffer) (byte : UInt8), b.position < b.capacity →
      ∃ b', Buffer.appendByte byte b = .ok () b' ∧ b'.capacity = b.capacity ∧
        b'.position = b.position + 1 ∧ b'.bytes.toList = spliced b.bytes.toList b.position [byte]) ∧
    (∀ (b : Buffer) (byte : UInt8), b.position = b.capacity → 2 * b.capacity ≤ Limits.maxAllocation →
      ∃ b', Buffer.appendByte byte b = .ok () b' ∧ b'.capacity = max (2 * b.capacity) 10 ∧
        b'.position = b.position + 1 ∧ b'.bytes.toList = b.bytes.toList ++ [byte] ++
          List.replicate (b'.capacity - b'.position) 0) ∧
    ∀ (w : Writer) (position : Nat) (word : UInt32), w.buffer.Fits →
      position + (Varint.encode word).length ≤ w.length →
      (position + 5 ≤ w.capacity →
        ∃ w', patch Writer.length Writer.setPosition position [word] w = .ok () w' ∧
          w'.length = w.length ∧
          w'.toBytes.toList = spliced w.toBytes.toList position (Varint.encode word)) ∧
      (w.capacity < position + 5 → 2 * w.capacity ≤ Limits.maxAllocation →
        ∃ w', patch Writer.length Writer.setPosition position [word] w = .ok () w' ∧
          w'.length = w.length ∧
          w'.toBytes.toList = w.toBytes.toList.take position ++ Varint.encode word ++
            List.replicate (w.length - (position + (Varint.encode word).length)) 0) := by
  refine ⟨?_, ?_, ?_, ?_, ?_⟩
  · intro b word h hroom
    have hlength : (Varint.encode word).length ≤ 5 := Varint.length_encode_le word
    exact ⟨_, Varint.write_of_room h hroom, Buffer.filled_capacity _ _, Buffer.filled_position _ _,
      Buffer.toList_filled (by omega)⟩
  · intro b word h hfull hgrow
    refine ⟨_, Varint.write_of_full h hfull hgrow, ?_, Buffer.filled_position _ _, ?_⟩
    · rw [Buffer.filled_capacity, Buffer.grown_capacity]
      rfl
    · exact Buffer.toList_filled_grown h.position_le (Varint.longest_fits_grown h.position_le word)
  · intro b byte hroom
    exact ⟨_, Buffer.appendByte_of_room byte hroom, Buffer.filled_capacity _ _,
      Buffer.filled_position _ _, Buffer.toList_filled hroom⟩
  · intro b byte hfull hgrow
    have hgrown := Buffer.capacity_lt_grownCapacity b.capacity
    refine ⟨_, Buffer.appendByte_of_full byte hfull hgrow, ?_, Buffer.filled_position _ _, ?_⟩
    · rw [Buffer.filled_capacity, Buffer.grown_capacity]
      rfl
    · have hall : b.bytes.toList.take b.position = b.bytes.toList :=
        List.take_of_length_le (by rw [hfull]; exact Nat.le_of_eq Array.length_toList)
      have hroom : b.position + [byte].length ≤ Buffer.grownCapacity b.capacity := by
        rw [hfull]
        exact hgrown
      rw [Buffer.toList_filled_grown (Nat.le_of_eq hfull) hroom, hall]
  · intro w position word h hinside
    exact ⟨Writer.patch_of_room h hinside, Writer.patch_of_full h hinside⟩

/-- A word of two bytes over ten others, where five bytes are left and where four are; and a byte that is
the last one to fit, and one that does not. -/
theorem Standard.writes_over_ten_bytes :
    (∃ b', Varint.write 300 ⟨Array.replicate 10 0xFF, 5⟩ = .ok () b' ∧
      b'.bytes.toList = [0xFF, 0xFF, 0xFF, 0xFF, 0xFF, 0xAC, 0x02, 0xFF, 0xFF, 0xFF]) ∧
    (∃ b', Varint.write 300 ⟨Array.replicate 10 0xFF, 6⟩ = .ok () b' ∧
      b'.bytes.toList = [0xFF, 0xFF, 0xFF, 0xFF, 0xFF, 0xFF, 0xAC, 0x02] ++
        List.replicate (b'.capacity - b'.position) 0) ∧
    (∃ b', Buffer.appendByte 7 ⟨Array.replicate 10 0xFF, 9⟩ = .ok () b' ∧
      b'.bytes.toList = List.replicate 9 0xFF ++ [7]) ∧
    (∃ b', Buffer.appendByte 7 ⟨Array.replicate 10 0xFF, 10⟩ = .ok () b' ∧
      b'.bytes.toList = List.replicate 10 0xFF ++ [7] ++
        List.replicate (b'.capacity - b'.position) 0) ∧
    (∃ w', patch Writer.length Writer.setPosition 5 [300] ⟨⟨Array.replicate 10 0xFF, 10⟩⟩ =
        .ok () w' ∧
      w'.toBytes.toList = [0xFF, 0xFF, 0xFF, 0xFF, 0xFF, 0xAC, 0x02, 0xFF, 0xFF, 0xFF]) ∧
    ∃ w', patch Writer.length Writer.setPosition 6 [300] ⟨⟨Array.replicate 10 0xFF, 10⟩⟩ =
        .ok () w' ∧
      w'.toBytes.toList = [0xFF, 0xFF, 0xFF, 0xFF, 0xFF, 0xFF, 0xAC, 0x02, 0x00, 0x00] := by
  have hfits : ∀ position ≤ 10, Buffer.Fits ⟨Array.replicate 10 0xFF, position⟩ := by
    intro position hposition
    exact ⟨by simpa [Buffer.capacity] using hposition,
      by simp [Buffer.capacity, Limits.maxAllocation]⟩
  obtain ⟨hroom, hfull, hbyte, hlast, hpatch⟩ := writes_keep_the_rest_where_the_longest_fits
  obtain ⟨b₁, hrun₁, -, -, harray₁⟩ := hroom _ 300 (hfits 5 (by decide)) (by decide)
  obtain ⟨b₂, hrun₂, -, -, harray₂⟩ := hfull _ 300 (hfits 6 (by decide)) (by decide) (by decide)
  obtain ⟨b₃, hrun₃, -, -, harray₃⟩ := hbyte ⟨Array.replicate 10 0xFF, 9⟩ 7 (by decide)
  obtain ⟨b₄, hrun₄, -, -, harray₄⟩ := hlast ⟨Array.replicate 10 0xFF, 10⟩ 7 rfl (by decide)
  have hword := fun position => hpatch ⟨⟨Array.replicate 10 0xFF, 10⟩⟩ position 300
    (hfits 10 (by decide))
  obtain ⟨w₅, hrun₅, -, hbytes₅⟩ := (hword 5 (by decide +kernel)).1 (by decide)
  obtain ⟨w₆, hrun₆, -, hbytes₆⟩ := (hword 6 (by decide +kernel)).2 (by decide) (by decide)
  refine ⟨⟨b₁, hrun₁, harray₁.trans ?_⟩, ⟨b₂, hrun₂, harray₂.trans ?_⟩,
    ⟨b₃, hrun₃, harray₃.trans ?_⟩, ⟨b₄, hrun₄, harray₄.trans ?_⟩, ⟨w₅, hrun₅, hbytes₅.trans ?_⟩,
    ⟨w₆, hrun₆, hbytes₆.trans ?_⟩⟩
  · decide +kernel
  · congr 1
    decide +kernel
  · decide +kernel
  · congr 1
  · decide +kernel
  · decide +kernel

end WordStream
