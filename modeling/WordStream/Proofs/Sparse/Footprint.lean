import WordStream.Proofs.Buffer.Footprint
import WordStream.Proofs.Sparse.AnyCapacity
import WordStream.Proofs.Sparse.Writer.Motion

/-!
# What a sparse writer keeps of its memory

Of the calls that write, each goes on from the cursor and touches nothing but the bytes from the one that
it starts in to the one that it stops in.  What it does to these two depends on the way it takes: a byte
that has been begun keeps its bits, a byte that is started is cleared, and a word of whole bytes leaves the
byte behind it as it was.
-/

namespace WordStream.Sparse

namespace Writer

/-- A writer and a later one, between whose positions lies all that differs in their memory. -/
def Touches (w w' : Writer) : Prop := w.buffer.Touches w'.buffer

theorem touches_stepwise : Stepwise Touches where
  refl w := Buffer.touches_stepwise.refl w.buffer
  trans h h' := Buffer.touches_stepwise.trans h h'

theorem onBuffer_bind {α β : Type} (act : WriteM Buffer α) (next : α → WriteM Buffer β) :
    onBuffer (act >>= next) = onBuffer act >>= fun a => onBuffer (next a) := by
  funext w
  cases hact : act w.buffer with
  | ok a b =>
      rw [bind_of_ok (onBuffer_ok hact)]
      simp only [onBuffer, bind_of_ok hact]
  | error fault b =>
      rw [bind_of_error (onBuffer_error hact), onBuffer_error (bind_of_error hact)]

/-- Writing touches nothing but what it steps over, and the byte that it stops in. -/
theorem touches_movesOnBytes : MovesOnBytes Buffer.Touches :=
  ⟨Buffer.touches_stepwise, Buffer.modifyCurrent_touches, Buffer.touches_of_fills Buffer.advance_fills⟩

/-! ## The byte that a call starts in -/

/-- The bits before the cursor are those of the memory. -/
theorem take_ofByte_memory {w : Writer} (h : w.Sound) {i b : Nat} (hb : b ≤ 8)
    (hi : 8 * i + b ≤ w.bits.length) :
    (Bits.ofByte (w.buffer.memory i)).take b = (w.bits.drop (8 * i)).take b := by
  have hroom := h.room
  have hbit := w.bit.isLt
  have hlength := length_bits h
  rw [bitPosition_cursor] at hlength
  have hlt : i < w.buffer.bytes.toList.length := by
    rw [Buffer.capacity] at hroom
    rw [Array.length_toList]
    omega
  have hbyte : w.buffer.bytes.toList[i]? = some (w.buffer.memory i) := by
    rw [Buffer.memory_eq, ← Array.getElem?_toList, List.getElem?_eq_getElem hlt, Option.getD_some]
  have hfront : (Bits.ofBytes (w.buffer.bytes.toList.take i)).length = 8 * i := by
    rw [Bits.length_ofBytes, List.length_take_of_le (Nat.le_of_lt hlt)]
  rw [bits, List.take_drop, List.take_take, bitPosition_cursor, Nat.min_eq_left (by omega),
    Bits.take_ofBytes hbyte hb, List.drop_left' hfront]

/-- Where bits are only appended, the byte under the cursor keeps the ones that are written. -/
theorem take_ofByte_memory_eq {w w' : Writer} {more : List Bool} (h : w.Sound) (h' : w'.Sound)
    (hbits : w'.bits = w.bits ++ more) :
    (Bits.ofByte (w'.buffer.memory w.buffer.position)).take w.bit.val =
      (Bits.ofByte (w.buffer.memory w.buffer.position)).take w.bit.val := by
  have hlength := length_bits h
  rw [bitPosition_cursor] at hlength
  have hle := Nat.le_of_lt w.bit.isLt
  rw [take_ofByte_memory h hle (Nat.le_of_eq hlength.symm),
    take_ofByte_memory h' hle (by rw [hbits, List.length_append]; omega), hbits, List.take_drop,
    List.take_drop, List.take_append_of_le_length (Nat.le_of_eq hlength.symm)]

/-! ## The byte that a call stops in -/

theorem started_memory {w : Writer} (h : w.Sound) :
    w.started.buffer.memory w.started.buffer.position = 0 := by
  rw [started, Buffer.mapCurrent_memory _ (Buffer.advanced_position_lt h.room)]
  exact Function.update_self _ _ _

theorem align_clears {w : Writer} (h : w.Sound) (hbit : w.bit.val ≠ 0) :
    Achieves align w fun _ w' => w'.buffer.memory w'.buffer.position = 0 := by
  refine Achieves.bind_get ?_
  rw [if_pos hbit]
  refine (startByte_achieves h).bind ?_
  rintro _ _ ⟨rfl, -⟩
  exact Achieves.of_ok rfl (started_memory h)

theorem writeZero_clears {w : Writer} (h : w.Sound) :
    Achieves writeZero w fun _ w' => w'.buffer.position ≠ w.buffer.position →
      w'.buffer.memory w'.buffer.position = 0 := by
  refine Achieves.bind_get ?_
  refine (clearByte_achieves h).bind_if ?_
  rintro _ w' ⟨hsound, -, hsame, hbits⟩
  rw [← hsame]
  by_cases hlast : w'.bit.val = 7
  · rw [if_pos hlast]
    refine (startByte_achieves hsound).mono ?_
    rintro _ _ ⟨rfl, -⟩ _
    exact started_memory hsound
  · -- The zero is in the byte that was under the cursor, and the cursor stays there.
    rw [if_neg hlast]
    have hlength := length_bits hsound
    rw [hbits, length_bits h, bitPosition_cursor, bitPosition_cursor, hsame] at hlength
    exact Achieves.of_ok rfl fun hne => absurd (show w'.buffer.position = _ by omega) hne

/-- From between two bytes, a writer that comes to a place between two bytes again, with nothing written
in the byte that follows. -/
def FillsBytes (w w' : Writer) : Prop :=
  w.bit.val = 0 → w'.bit.val = 0 ∧ w.buffer.Fills w'.buffer

theorem fillsBytes_stepwise : Stepwise FillsBytes where
  refl w hbit := ⟨hbit, Buffer.fills_stepwise.refl w.buffer⟩
  trans h h' hbit :=
    have hmid := h hbit
    have hlast := h' hmid.1
    ⟨hlast.1, Buffer.fills_stepwise.trans hmid.2 hlast.2⟩

theorem writeLogicalByte_of_aligned (byte : UInt8) {w : Writer} (hbit : w.bit.val = 0) :
    writeLogicalByte byte w = onBuffer (Buffer.storeCurrent byte >>= fun _ => Buffer.advance) w := by
  have hget : (get : WriteM Writer Writer) w = .ok w w := rfl
  rw [writeLogicalByte, bind_of_ok hget]
  dsimp only
  rw [if_pos hbit, if_neg (not_not_intro hbit), onBuffer_bind]
  simp only [bind_pure_unit]

theorem writeLogicalByte_fillsBytes (byte : UInt8) : Moves FillsBytes (writeLogicalByte byte) := by
  intro w hbit
  rw [writeLogicalByte_of_aligned byte hbit]
  obtain ⟨hfills, hsame⟩ := onBuffer_moves (Buffer.storeCurrent_advance_fills byte) w
  exact ⟨by rw [hsame, hbit], hfills⟩

theorem writeWord_fillsBytes {word : UInt32} (hword : word ≠ 0) :
    Moves FillsBytes (writeWord word : WriteM Writer Unit) := by
  change Moves FillsBytes (if word = 0 then writeZero else (logicalBytes word).forM writeLogicalByte)
  rw [if_neg hword]
  exact .forM fillsBytes_stepwise writeLogicalByte_fillsBytes _

end Writer

/-! ## Calls -/

namespace Call

/-- What a call does to the byte that it stops in: it is cleared where it is started by a zero or by
aligning, and kept where whole bytes have been written up to it. -/
def Stops : Call → Writer → Writer → Prop
  | word v, w, w' =>
      if v = 0 then w'.cursor.byte ≠ w.cursor.byte → w'.buffer.memory w'.cursor.byte = 0
      else w.cursor.bit.val = 0 →
        w'.cursor.bit.val = 0 ∧ w'.buffer.memory w'.cursor.byte = w.buffer.memory w'.cursor.byte
  | zero, w, w' => w'.cursor.byte ≠ w.cursor.byte → w'.buffer.memory w'.cursor.byte = 0
  | align, w, w' => w.cursor.bit.val ≠ 0 → w'.buffer.memory w'.cursor.byte = 0
  | setPosition _, _, _ => True

/-- What a call leaves of the memory of a writer: all that lies before the byte that it starts in or
behind the one that it stops in, and in the first of the two the bits that are written already.  The
memory goes on behind the array with zeros, so that a growth loses nothing and brings nothing else. -/
structure Footprint (call : Call) (w w' : Writer) : Prop where
  capacity_le : w.capacity ≤ w'.capacity
  byte_le : w.cursor.byte ≤ w'.cursor.byte
  outside : ∀ i, i < w.cursor.byte ∨ w'.cursor.byte < i → w'.buffer.memory i = w.buffer.memory i
  written : (Bits.ofByte (w'.buffer.memory w.cursor.byte)).take w.cursor.bit.val =
    (Bits.ofByte (w.buffer.memory w.cursor.byte)).take w.cursor.bit.val
  stops : call.Stops w w'

theorem run_touches {call : Call} (hmove : call.isMove = false) : Moves Writer.Touches call.run := by
  cases call with
  | word v => exact (Writer.touches_movesOnBytes.writeWord v).map Writer.touches_stepwise fun _ => none
  | zero => exact Writer.touches_movesOnBytes.writeZero.map Writer.touches_stepwise fun _ => none
  | align => exact Writer.touches_movesOnBytes.align.map Writer.touches_stepwise some
  | setPosition position => cases hmove

/-- A call that is no move only appends to the bits, wherever they end. -/
theorem exists_apply_eq {call : Call} (hmove : call.isMove = false) (bits : List Bool) :
    call.StaysInside bits ∧ ∃ more, call.apply bits = bits ++ more := by
  cases call with
  | word v => exact ⟨trivial, _, rfl⟩
  | zero => exact ⟨trivial, _, rfl⟩
  | align => exact ⟨trivial, _, rfl⟩
  | setPosition position => cases hmove

theorem run_stops {call : Call} (hmove : call.isMove = false) {w : Writer} (h : w.Sound) :
    Achieves call.run w fun _ w' => call.Stops w w' := by
  cases call with
  | word v =>
      by_cases hv : v = 0
      · subst hv
        refine (Writer.writeZero_clears h).bind fun _ w' hclears => ?_
        exact Achieves.pure hclears
      · have hwrite := (Writer.appends_code v w h).moved (Writer.writeWord_fillsBytes hv)
        refine hwrite.bind fun _ w' hpost => Achieves.pure ?_
        rw [Stops, if_neg hv]
        exact fun hbit => ⟨(hpost.2 hbit).1, (hpost.2 hbit).2.ahead⟩
  | zero => exact (Writer.writeZero_clears h).bind fun _ w' hclears => Achieves.pure hclears
  | align =>
      by_cases hbit : w.bit.val = 0
      · exact (Writer.align_achieves h).bind fun _ w' _ => Achieves.pure (absurd hbit)
      · exact (Writer.align_clears h hbit).bind fun _ w' hclears => Achieves.pure fun _ => hclears
  | setPosition position => cases hmove

theorem run_footprint {call : Call} (hmove : call.isMove = false) {w : Writer} (h : w.Sound) :
    Achieves call.run w fun _ w' => call.Footprint w w' := by
  obtain ⟨hinside, more, happly⟩ := exists_apply_eq hmove w.bits
  have hrun := (run_achieves call h hinside).moved (run_touches hmove)
  refine (hrun.and (run_stops hmove h)).mono ?_
  rintro _ w' ⟨⟨⟨hsound, hbits, -⟩, htouches⟩, hstops⟩
  rw [happly] at hbits
  exact ⟨htouches.widens, htouches.position_le, htouches.outside,
    Writer.take_ofByte_memory_eq h hsound hbits, hstops⟩

end Call

end WordStream.Sparse
