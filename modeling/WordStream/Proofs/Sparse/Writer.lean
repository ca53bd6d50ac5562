import WordStream.Proofs.Buffer
import WordStream.Proofs.Sparse.Code
import WordStream.Proofs.Sparse.Cursor
import WordStream.Sparse.Writer

/-!
# The sparse writer as a string of bits

A writer is seen as the string of the bits before its cursor.  Its invariant is that the byte under
the cursor exists and that, once some of its bits are written, the others are zero; at offset zero
that byte may hold anything.  Every operation keeps the invariant and only appends to the bits.
-/

namespace WordStream.Sparse

namespace Writer

/-- The bits before the cursor. -/
def bits (w : Writer) : List Bool :=
  (Bits.ofBytes w.buffer.bytes.toList).take w.cursor.bitPosition

/-- The byte under the cursor is zero from the cursor on. -/
def Clear (w : Writer) : Prop :=
  ∃ byte, w.buffer.current? = some byte ∧
    (Bits.ofByte byte).drop w.bit.val = List.replicate (8 - w.bit.val) false

/-- The byte under the cursor exists, and nothing is left over in it once it has been begun. -/
structure Sound (w : Writer) : Prop where
  fits : w.buffer.Fits
  room : w.buffer.position < w.buffer.capacity
  clear : w.bit.val ≠ 0 → w.Clear

/-- Between two bytes nothing is asked of the byte under the cursor but that it exists. -/
theorem Sound.of_aligned {w : Writer} (hfits : w.buffer.Fits)
    (hroom : w.buffer.position < w.buffer.capacity) (hbit : w.bit.val = 0) : w.Sound :=
  ⟨hfits, hroom, fun hne => absurd hbit hne⟩

theorem bits_eq {w : Writer} {byte : UInt8} (h : w.buffer.current? = some byte) :
    w.bits = Bits.ofBytes w.buffer.written.toList ++ (Bits.ofByte byte).take w.bit.val := by
  have hbit := w.bit.isLt
  rw [Buffer.toList_written]
  refine Bits.take_ofBytes ?_ (by omega)
  rw [Array.getElem?_toList]
  exact h

theorem bitPosition_cursor (w : Writer) :
    w.cursor.bitPosition = 8 * w.buffer.position + w.bit.val := rfl

theorem length_bits {w : Writer} (h : w.Sound) : w.bits.length = w.cursor.bitPosition := by
  have hroom := h.room
  have hbit := w.bit.isLt
  rw [Buffer.capacity] at hroom
  rw [bits, List.length_take, Bits.length_ofBytes, Array.length_toList, bitPosition_cursor]
  omega

theorem bits_of_aligned {w : Writer} (h : w.Sound) (hbit : w.bit.val = 0) :
    w.bits = Bits.ofBytes w.buffer.written.toList := by
  obtain ⟨byte, hbyte⟩ := Buffer.exists_current h.room
  rw [bits_eq hbyte, hbit, List.take_zero, List.append_nil]

/-! ## What is shown of a writer -/

theorem cursor_eq_atBit {w : Writer} (h : w.Sound) : w.cursor = Cursor.atBit w.bits.length :=
  Cursor.eq_atBit (length_bits h).symm

theorem length_bits_mod {w : Writer} (h : w.Sound) : w.bits.length % 8 = w.bit.val := by
  have hbit := w.bit.isLt
  rw [length_bits h, bitPosition_cursor]
  omega

theorem length_eq_bits {w : Writer} (h : w.Sound) : w.length = (w.bits.length + 7) / 8 := by
  have hbit := w.bit.isLt
  rw [length_bits h, bitPosition_cursor, length]
  split <;> omega

theorem toBytes_eq_take (w : Writer) : w.toBytes.toList = w.buffer.bytes.toList.take w.length := by
  simp [toBytes, Buffer.firstBytes]

/-- The bytes of a writer are its bits and the zeros that fill the last byte. -/
theorem ofBytes_toBytes {w : Writer} (h : w.Sound) :
    Bits.ofBytes w.toBytes.toList = Bits.aligned w.bits := by
  have hbit := w.bit.isLt
  rw [toBytes_eq_take, Bits.aligned, length_bits_mod h]
  by_cases hzero : w.bit.val = 0
  · rw [length, if_pos hzero, Nat.add_zero, ← Buffer.toList_written, bits_of_aligned h hzero, hzero]
    exact (List.append_nil _).symm
  · -- Inside a byte, the one under the cursor is shown whole: its written bits, then zeros.
    obtain ⟨byte, hbyte, hzeros⟩ := h.clear hzero
    have hlist : w.buffer.bytes.toList[w.buffer.position]? = some byte := by
      rw [Array.getElem?_toList]
      exact hbyte
    have hlast : (Bits.ofByte byte).take 8 =
        (Bits.ofByte byte).take w.bit.val ++ List.replicate (8 - w.bit.val) false := by
      rw [← hzeros, List.take_append_drop, List.take_of_length_le (by simp)]
    have hwhole := Bits.take_ofBytes hlist (Nat.le_refl 8)
    rw [hlast, ← List.append_assoc, ← Buffer.toList_written, ← bits_eq hbyte] at hwhole
    rw [length, if_neg hzero, Bits.ofBytes_take, Nat.mul_succ, hwhole,
      Nat.mod_eq_of_lt (show 8 - w.bit.val < 8 by omega)]

theorem toList_toBytes {w : Writer} (h : w.Sound) : w.toBytes.toList = Bits.pack w.bits :=
  Bits.eq_pack (ofBytes_toBytes h)

/-! ## Single steps -/

theorem onBuffer_ok {α : Type} {act : WriteM Buffer α} {w : Writer} {a : α} {b : Buffer}
    (h : act w.buffer = .ok a b) : onBuffer act w = .ok a ⟨b, w.bit⟩ := by
  simp only [onBuffer, h]

theorem onBuffer_error {α : Type} {act : WriteM Buffer α} {w : Writer} {fault : Fault} {b : Buffer}
    (h : act w.buffer = .error fault b) : onBuffer act w = .error fault ⟨b, w.bit⟩ := by
  simp only [onBuffer, h]

theorem onBuffer_achieves {α : Type} {act : WriteM Buffer α} {w : Writer}
    {post : α → Writer → Prop} (h : Achieves act w.buffer fun a b => post a ⟨b, w.bit⟩) :
    Achieves (onBuffer act) w post :=
  Achieves.of_part (fun _ _ => onBuffer_ok) (fun _ _ => onBuffer_error) h

theorem modify_ok {w : Writer} (h : w.buffer.position < w.buffer.capacity) (f : UInt8 → UInt8) :
    onBuffer (Buffer.modifyCurrent f) w = .ok () ⟨w.buffer.mapCurrent f, w.bit⟩ :=
  onBuffer_ok (Buffer.modifyCurrent_ok h)

theorem advance_achieves {w : Writer} (hfits : w.buffer.Fits)
    (h : w.buffer.position < w.buffer.capacity) :
    Achieves (onBuffer Buffer.advance) w fun _ w' =>
      w' = ⟨w.buffer.advanced, w.bit⟩ ∧ w'.buffer.Fits :=
  onBuffer_achieves ((Buffer.advance_achieves hfits h).mono fun _ b hb =>
    ⟨by rw [hb.1], hb.2⟩)

/-! ## Starting a byte -/

/-- The writer at the start of its next byte, which is zero. -/
def started (w : Writer) : Writer := ⟨w.buffer.advanced.mapCurrent fun _ => 0, .start⟩

theorem startByte_achieves {w : Writer} (h : w.Sound) :
    Achieves startByte w fun _ w' => w' = w.started ∧ w'.buffer.Fits := by
  refine (advance_achieves h.fits h.room).bind ?_
  rintro _ _ ⟨rfl, hfits⟩
  have hstore := modify_ok (w := ⟨w.buffer.advanced, w.bit⟩) (Buffer.advanced_position_lt h.room)
    (fun _ => 0)
  exact Achieves.bind_ok hstore (Achieves.of_ok rfl ⟨rfl, hfits.mapCurrent _⟩)

theorem started_sound {w : Writer} (h : w.Sound) (hfits : w.started.buffer.Fits) :
    w.started.Sound :=
  .of_aligned hfits (Buffer.mapCurrent_room (Buffer.advanced_position_lt h.room) _) rfl

/-- Starting a byte makes the rest of the one before it part of the output. -/
theorem started_bits {w : Writer} (h : w.Sound) (hclear : w.Clear)
    (hfits : w.started.buffer.Fits) :
    w.started.bits = w.bits ++ List.replicate (8 - w.bit.val) false := by
  obtain ⟨byte, hbyte, hzeros⟩ := hclear
  rw [bits_of_aligned (started_sound h hfits) rfl, bits_eq hbyte, started,
    Buffer.mapCurrent_written, Buffer.advanced_written h.room hbyte, Bits.ofBytes_append, ← hzeros,
    List.append_assoc, List.take_append_drop, Bits.ofBytes_cons, Bits.ofBytes_nil, List.append_nil]

/-! ## Aligning -/

/-- Aligning fills the last byte with zeros and tells where the next one is. -/
theorem align_achieves {w : Writer} (h : w.Sound) :
    Achieves align w fun position w' =>
      w'.Sound ∧ w'.bit.val = 0 ∧ w'.bits = Bits.aligned w.bits ∧
        position = w'.buffer.position := by
  refine Achieves.bind_get ?_
  have hbit := w.bit.isLt
  have hmod := length_bits_mod h
  by_cases hzero : w.bit.val = 0
  · rw [if_neg (not_not_intro hzero)]
    refine Achieves.of_ok rfl ⟨h, hzero, ?_, rfl⟩
    rw [Bits.aligned, hmod, hzero]
    exact (List.append_nil _).symm
  · rw [if_pos hzero]
    refine (startByte_achieves h).bind ?_
    rintro _ _ ⟨rfl, hfits⟩
    refine Achieves.of_ok rfl ⟨started_sound h hfits, rfl, ?_, rfl⟩
    rw [started_bits h (h.clear hzero) hfits, Bits.aligned, hmod,
      Nat.mod_eq_of_lt (show 8 - w.bit.val < 8 by omega)]

/-! ## Moving back -/

theorem move_achieves {w : Writer} (h : w.Sound) (hbit : w.bit.val = 0) {position : Nat}
    (hposition : position ≤ w.buffer.position) :
    Achieves (onBuffer (Buffer.setPosition position)) w fun _ w' =>
      w'.Sound ∧ w'.bit.val = 0 ∧ w'.bits = w.bits.take (8 * position) := by
  have hinside := Nat.le_trans hposition h.fits.position_le
  have hsound : Sound ⟨w.buffer.movedTo position, w.bit⟩ :=
    .of_aligned (h.fits.movedTo hinside) (Nat.lt_of_le_of_lt hposition h.room) hbit
  refine Achieves.of_ok (onBuffer_ok (Buffer.setPosition_ok hinside)) ⟨hsound, hbit, ?_⟩
  rw [bits_of_aligned hsound hbit, bits_of_aligned h hbit, Buffer.movedTo_written hposition,
    Bits.ofBytes_take]

theorem ensure_achieves {w : Writer} (h : w.Sound) (hbit : w.bit.val = 0) :
    Achieves (onBuffer (Buffer.ensure 1)) w fun _ w' => w'.Sound ∧ w'.bits = w.bits := by
  refine onBuffer_achieves ((Buffer.ensureOne_achieves h.fits).mono ?_)
  rintro _ b ⟨hfits, _, hwritten, hroom⟩
  have hsound : Sound ⟨b, w.bit⟩ := .of_aligned hfits hroom hbit
  refine ⟨hsound, ?_⟩
  rw [bits_of_aligned hsound hbit, bits_of_aligned h hbit]
  exact congrArg (fun bytes : Array UInt8 => Bits.ofBytes bytes.toList) hwritten

/-- Moving back to a byte of the aligned output keeps the bits before it and no others. -/
theorem setPosition_achieves {w : Writer} (h : w.Sound) {position : Nat}
    (hposition : 8 * position ≤ (Bits.aligned w.bits).length) :
    Achieves (setPosition position) w fun _ w' =>
      w'.Sound ∧ w'.bits = (Bits.aligned w.bits).take (8 * position) := by
  have halign : Achieves (discard align) w fun _ w' =>
      w'.Sound ∧ w'.bit.val = 0 ∧ w'.bits = Bits.aligned w.bits :=
    Achieves.map ((align_achieves h).mono fun _ _ hpost => ⟨hpost.1, hpost.2.1, hpost.2.2.1⟩)
  refine halign.bind ?_
  rintro _ w' ⟨hsound, hbit, hbits⟩
  rw [← hbits, length_bits hsound, bitPosition_cursor] at hposition
  refine (move_achieves hsound hbit (by omega)).bind ?_
  rintro _ w'' ⟨hsound', hbit', hbits'⟩
  rw [← hbits, ← hbits']
  exact ensure_achieves hsound' hbit'

/-! ## Writing a zero -/

/-- Whatever the offset, the byte under the cursor can be made clear before a zero is written. -/
theorem clearByte_achieves {w : Writer} (h : w.Sound) :
    Achieves (if w.bit.val = 0 then onBuffer (Buffer.storeCurrent 0) else pure ()) w fun _ w' =>
      w'.Sound ∧ w'.Clear ∧ w'.bit = w.bit ∧ w'.bits = w.bits := by
  by_cases hzero : w.bit.val = 0
  · rw [if_pos hzero]
    refine Achieves.of_ok (modify_ok h.room fun _ => 0) ?_
    have hclear : Clear ⟨w.buffer.mapCurrent fun _ => 0, w.bit⟩ := by
      refine ⟨0, Buffer.stored_current? h.room 0, ?_⟩
      rw [Bits.ofByte_zero, List.drop_replicate]
    have hsound : Sound ⟨w.buffer.mapCurrent fun _ => 0, w.bit⟩ :=
      ⟨h.fits.mapCurrent _, Buffer.mapCurrent_room h.room _, fun _ => hclear⟩
    refine ⟨hsound, hclear, rfl, ?_⟩
    rw [bits_of_aligned hsound hzero, bits_of_aligned h hzero, Buffer.mapCurrent_written]
  · rw [if_neg hzero]
    exact Achieves.of_ok rfl ⟨h, h.clear hzero, rfl, rfl⟩

theorem setBit_next {w : Writer} (h : w.Sound) (hclear : w.Clear) (hbit : w.bit.val ≠ 7) :
    Sound ⟨w.buffer, w.bit.next⟩ ∧ bits ⟨w.buffer, w.bit.next⟩ = w.bits ++ [false] := by
  have hlt := w.bit.isLt
  have hnext : w.bit.next.val = w.bit.val + 1 := Nat.mod_eq_of_lt (by omega)
  obtain ⟨byte, hbyte, hzeros⟩ := hclear
  constructor
  · refine ⟨h.fits, h.room, fun _ => ⟨byte, hbyte, ?_⟩⟩
    change (Bits.ofByte byte).drop w.bit.next.val = List.replicate (8 - w.bit.next.val) false
    rw [hnext, ← List.drop_drop, hzeros, List.drop_replicate, Nat.sub_sub]
  · have htake : (Bits.ofByte byte).take (w.bit.val + 1) =
        (Bits.ofByte byte).take w.bit.val ++ [false] := by
      rw [List.take_add, hzeros, List.take_replicate, Nat.min_eq_left (by omega)]
      rfl
    rw [bits_eq (w := ⟨w.buffer, w.bit.next⟩) hbyte, bits_eq hbyte, List.append_assoc, ← htake,
      ← hnext]

theorem writeZero_achieves {w : Writer} (h : w.Sound) :
    Achieves writeZero w fun _ w' => w'.Sound ∧ w'.bits = w.bits ++ [false] := by
  refine Achieves.bind_get ?_
  refine (clearByte_achieves h).bind_if ?_
  rintro _ w' ⟨hsound, hclear, hsame, hbits⟩
  rw [← hsame, ← hbits]
  -- In the last place the zero is the one bit left of the byte, and the next byte is started.
  by_cases hlast : w'.bit.val = 7
  · rw [if_pos hlast]
    refine (startByte_achieves hsound).mono ?_
    rintro _ _ ⟨rfl, hfits⟩
    refine ⟨started_sound hsound hfits, ?_⟩
    rw [started_bits hsound hclear hfits, hlast]
    rfl
  · rw [if_neg hlast]
    exact Achieves.of_ok rfl (setBit_next hsound hclear hlast)

/-! ## Writing a logical byte -/

theorem writeAlignedByte_achieves {w : Writer} (h : w.Sound) (hbit : w.bit.val = 0) (byte : UInt8) :
    Achieves (writeLogicalByte byte) w fun _ w' =>
      w'.Sound ∧ w'.bits = w.bits ++ Bits.ofByte byte := by
  refine Achieves.bind_get ?_
  rw [if_pos hbit]
  refine Achieves.bind_ok (modify_ok h.room fun _ => byte) ?_
  have hroom := Buffer.mapCurrent_room h.room fun _ => byte
  have hbyte := Buffer.stored_current? h.room byte
  refine (advance_achieves (h.fits.mapCurrent _) hroom).bind ?_
  rintro _ _ ⟨rfl, hfits⟩
  rw [if_neg (not_not_intro hbit)]
  have hsound : Sound ⟨(w.buffer.mapCurrent fun _ => byte).advanced, w.bit⟩ :=
    .of_aligned hfits (Buffer.advanced_position_lt hroom) hbit
  refine Achieves.of_ok rfl ⟨hsound, ?_⟩
  rw [bits_of_aligned hsound hbit, bits_of_aligned h hbit, Buffer.advanced_written hroom hbyte,
    Buffer.mapCurrent_written, Bits.ofBytes_append, Bits.ofBytes_cons, Bits.ofBytes_nil,
    List.append_nil]

/-- The writer after a logical byte has been written inside a byte: the high bits fill up this byte,
the others begin the next one. -/
def straddled (byte : UInt8) (w : Writer) : Writer :=
  ⟨(w.buffer.mapCurrent (· ||| byte >>> UInt8.ofNat w.bit.val)).advanced.mapCurrent
    fun _ => byte <<< UInt8.ofNat (8 - w.bit.val), w.bit⟩

theorem straddled_current? {w : Writer} (h : w.Sound) (byte : UInt8) :
    (w.straddled byte).buffer.current? = some (byte <<< UInt8.ofNat (8 - w.bit.val)) :=
  Buffer.stored_current? (Buffer.advanced_position_lt (Buffer.mapCurrent_room h.room _)) _

theorem straddled_sound {w : Writer} {byte : UInt8} (h : w.Sound) (hbit : w.bit.val ≠ 0)
    (hfits : (w.straddled byte).buffer.Fits) : (w.straddled byte).Sound := by
  have hlt := w.bit.isLt
  refine ⟨hfits, ?_, fun _ => ⟨_, straddled_current? h byte, ?_⟩⟩
  · exact Buffer.mapCurrent_room
      (Buffer.advanced_position_lt (Buffer.mapCurrent_room h.room _)) _
  · change (Bits.ofByte _).drop w.bit.val = List.replicate (8 - w.bit.val) false
    rw [Bits.ofByte_shiftLeft byte (by omega), List.drop_left']
    rw [List.length_drop, Bits.length_ofByte]
    omega

theorem straddled_bits {w : Writer} (h : w.Sound) (hbit : w.bit.val ≠ 0) (byte : UInt8) :
    (w.straddled byte).bits = w.bits ++ Bits.ofByte byte := by
  have hlt := w.bit.isLt
  obtain ⟨old, hold, hzeros⟩ := h.clear hbit
  have hmerged : (w.buffer.mapCurrent (· ||| byte >>> UInt8.ofNat w.bit.val)).current? =
      some (old ||| byte >>> UInt8.ofNat w.bit.val) := by
    rw [Buffer.mapCurrent_current?, hold, Option.map_some]
  have hwritten : (w.straddled byte).buffer.written.toList =
      w.buffer.written.toList ++ [old ||| byte >>> UInt8.ofNat w.bit.val] := by
    rw [straddled, Buffer.mapCurrent_written,
      Buffer.advanced_written (Buffer.mapCurrent_room h.room _) hmerged, Buffer.mapCurrent_written]
  have htail : ((Bits.ofByte byte).drop (8 - w.bit.val) ++
      List.replicate (8 - w.bit.val) false).take w.bit.val =
        (Bits.ofByte byte).drop (8 - w.bit.val) := by
    rw [List.take_left']
    rw [List.length_drop, Bits.length_ofByte]
    omega
  -- The high bits take the place of zeros, so that nothing of the byte before them is touched.
  calc (w.straddled byte).bits
    _ = Bits.ofBytes (w.straddled byte).buffer.written.toList ++
          (Bits.ofByte (byte <<< UInt8.ofNat (8 - w.bit.val))).take w.bit.val :=
        bits_eq (straddled_current? h byte)
    _ = Bits.ofBytes w.buffer.written.toList ++ ((Bits.ofByte old).take w.bit.val ++
          ((Bits.ofByte byte).take (8 - w.bit.val) ++
            (Bits.ofByte byte).drop (8 - w.bit.val))) := by
        rw [hwritten, Bits.ofBytes_append, Bits.ofBytes_cons, Bits.ofBytes_nil, List.append_nil,
          Bits.ofByte_merge byte hlt hzeros, Bits.ofByte_shiftLeft byte (by omega), htail,
          List.append_assoc, List.append_assoc]
    _ = w.bits ++ Bits.ofByte byte := by
        rw [List.take_append_drop, bits_eq hold, List.append_assoc]

theorem writeStraddlingByte_achieves {w : Writer} (h : w.Sound) (hbit : w.bit.val ≠ 0)
    (byte : UInt8) :
    Achieves (writeLogicalByte byte) w fun _ w' =>
      w'.Sound ∧ w'.bits = w.bits ++ Bits.ofByte byte := by
  refine Achieves.bind_get ?_
  rw [if_neg hbit]
  refine Achieves.bind_ok (modify_ok h.room (· ||| byte >>> UInt8.ofNat w.bit.val)) ?_
  have hroom := Buffer.mapCurrent_room h.room (· ||| byte >>> UInt8.ofNat w.bit.val)
  refine (advance_achieves (h.fits.mapCurrent _) hroom).bind ?_
  rintro _ _ ⟨rfl, hfits⟩
  rw [if_pos hbit]
  refine Achieves.of_ok (modify_ok (Buffer.advanced_position_lt hroom)
    fun _ => byte <<< UInt8.ofNat (8 - w.bit.val)) ⟨?_, straddled_bits h hbit byte⟩
  exact straddled_sound h hbit (hfits.mapCurrent _)

theorem writeLogicalByte_achieves {w : Writer} (h : w.Sound) (byte : UInt8) :
    Achieves (writeLogicalByte byte) w fun _ w' =>
      w'.Sound ∧ w'.bits = w.bits ++ Bits.ofByte byte := by
  by_cases hbit : w.bit.val = 0
  · exact writeAlignedByte_achieves h hbit byte
  · exact writeStraddlingByte_achieves h hbit byte

/-! ## The spelling of the sparse format -/

instance : SymbolSink Writer Bool where
  Valid := Sound
  written := bits

theorem appends_writeZero : Appends writeZero [false] :=
  fun _ h => writeZero_achieves h

theorem appends_logicalBytes (bytes : List UInt8) :
    Appends (bytes.forM writeLogicalByte) (Bits.ofBytes bytes) :=
  Appends.forM (fun byte _ h => writeLogicalByte_achieves h byte) bytes

/-- A word is appended as its code. -/
theorem appends_code (w : UInt32) : Appends (writeWord w : WriteM Writer Unit) (code w.toNat) := by
  change Appends (if w = 0 then writeZero else (logicalBytes w).forM writeLogicalByte) _
  by_cases hw : w = 0
  · subst hw
    rw [if_pos rfl]
    exact appends_writeZero
  · rw [if_neg hw, ← ofBytes_logicalBytes hw]
    exact appends_logicalBytes (logicalBytes w)

instance : WritesSpelling Writer spelling where
  appends_writeWord := appends_code
  appends_writeBool b := by
    cases b
    · exact appends_code 0
    · exact appends_code 1
  appends_writeByte x := appends_code x.toUInt32

/-- A new writer is what making room for a byte leaves of its buffer. -/
theorem ofBuffer_delivers_of {b : Buffer} {post : Writer → Prop}
    (h : Achieves (Buffer.ensure 1) b fun _ b' => post ⟨b', .start⟩) : Delivers (ofBuffer b) post := by
  unfold Achieves at h
  unfold ofBuffer
  cases hrun : Buffer.ensure 1 b with
  | ok u b' =>
      rw [hrun] at h
      exact h
  | error fault b' =>
      rw [hrun] at h
      exact h

theorem ofBuffer_delivers {b : Buffer} (h : b.Fits) (hposition : b.position = 0) :
    Delivers (ofBuffer b) fun w => w.Sound ∧ w.bits = [] := by
  refine ofBuffer_delivers_of ((Buffer.ensureOne_achieves h).mono ?_)
  rintro _ b' ⟨hfits, hsame, -, hroom⟩
  have hsound : Sound ⟨b', .start⟩ := .of_aligned hfits hroom rfl
  refine ⟨hsound, ?_⟩
  rw [bits_of_aligned hsound rfl, Buffer.written_of_position_zero (hsame.trans hposition)]
  rfl

theorem withCapacity_delivers (capacity : Nat) :
    Delivers (withCapacity capacity) fun w => w.Sound ∧ w.bits = [] :=
  (Buffer.withCapacity_delivers capacity).bind fun _ hb => ofBuffer_delivers hb.1 hb.2

end Writer

end WordStream.Sparse
