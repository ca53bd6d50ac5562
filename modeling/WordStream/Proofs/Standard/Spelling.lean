import WordStream.Proofs.Buffer
import WordStream.Proofs.Chain
import WordStream.Proofs.Stream.Symbols
import WordStream.Standard.Reader
import WordStream.Standard.Writer

/-!
# The spelling of the standard format

The symbols of the standard format are bytes.  A word is spelled by its varint, a boolean or a byte
by itself; the writer appends these spellings and the reader takes them off.
-/

namespace WordStream

namespace Varint

theorem length_encode_le (w : UInt32) : (encode w).length ≤ Limits.maxStandardBytes := by
  refine Chain.length_groups_le 4 ?_
  have hlt := w.toNat_lt
  omega

theorem write_achieves (w : UInt32) {b : Buffer} (h : b.Fits) :
    Achieves (write w) b fun _ b' =>
      b'.Fits ∧ b'.written.toList = b.written.toList ++ encode w := by
  have hlength := length_encode_le w
  have hroom := h.position_add_lt Limits.maxStandardBytes (by decide)
  refine (Buffer.ensure_achieves _ h hroom).bind ?_
  rintro _ b' ⟨hfits, hposition, hwritten, _⟩
  rw [← hwritten]
  refine Buffer.appendBytes_achieves _ hfits (hfits.position_add_lt _ ?_)
  exact Nat.le_trans hlength (by decide)

end Varint

namespace Standard

/-- Words are spelled by their varints, bytes by themselves. -/
def spelling : Spelling UInt8 := ⟨Varint.encode, fun x => [x]⟩

/-! ## Writing -/

namespace Writer

instance : SymbolSink Writer UInt8 where
  Valid w := w.buffer.Fits
  written w := w.buffer.written.toList

theorem onBuffer_ok {α : Type} {act : WriteM Buffer α} {w : Writer} {a : α} {b : Buffer}
    (h : act w.buffer = .ok a b) : onBuffer act w = .ok a ⟨b⟩ := by
  simp only [onBuffer, h]

theorem onBuffer_error {α : Type} {act : WriteM Buffer α} {w : Writer} {fault : Fault} {b : Buffer}
    (h : act w.buffer = .error fault b) : onBuffer act w = .error fault ⟨b⟩ := by
  simp only [onBuffer, h]

theorem onBuffer_achieves {α : Type} {act : WriteM Buffer α} {w : Writer}
    {post : α → Writer → Prop} (h : Achieves act w.buffer fun a b => post a ⟨b⟩) :
    Achieves (onBuffer act) w post :=
  Achieves.of_part (fun _ _ => onBuffer_ok) (fun _ _ => onBuffer_error) h

theorem setPosition_ok {w : Writer} {position : Nat} (h : position ≤ w.capacity) :
    setPosition position w = .ok () ⟨w.buffer.movedTo position⟩ :=
  onBuffer_ok (Buffer.setPosition_ok h)

theorem setPosition_error {w : Writer} {position : Nat} (h : ¬ position ≤ w.capacity) :
    setPosition position w = .error (.beyondCapacity position w.capacity) w :=
  onBuffer_error (Buffer.setPosition_error h)

theorem appends_onBuffer {act : WriteM Buffer Unit} {bytes : List UInt8}
    (h : ∀ b : Buffer, b.Fits → Achieves act b fun _ b' =>
      b'.Fits ∧ b'.written.toList = b.written.toList ++ bytes) :
    Appends (onBuffer act) bytes :=
  fun w hw => onBuffer_achieves (h w.buffer hw)

instance : WritesSpelling Writer spelling where
  appends_writeWord w := appends_onBuffer fun _ => Varint.write_achieves w
  appends_writeBool b := appends_onBuffer fun _ => Buffer.appendByte_achieves b.toUInt8
  appends_writeByte x := appends_onBuffer fun _ => Buffer.appendByte_achieves x

theorem withCapacity_delivers (capacity : Nat) :
    Delivers (withCapacity capacity) fun w => Valid w ∧ written w = [] :=
  (Buffer.withCapacity_delivers capacity).bind fun _ hb =>
    ⟨hb.1, Buffer.written_of_position_zero hb.2⟩

theorem length_eq_written {w : Writer} (h : Valid w) : w.length = (written w).length :=
  (Buffer.length_written h.position_le).symm

end Writer

/-! ## Reading -/

namespace Reader

instance : SymbolSource Reader UInt8 where
  unread r := r.bytes.toList.drop r.position
  skip n r := { r with position := r.position + n }
  skip_zero _ := rfl
  skip_skip m n r := by simp [Nat.add_assoc]
  unread_skip n r := by simp [List.drop_drop]

theorem getElem?_position {r : Reader} : r.bytes[r.position]? = (unread r)[0]? := by
  change _ = (r.bytes.toList.drop r.position)[0]?
  rw [List.getElem?_drop, Nat.add_zero, Array.getElem?_toList]

theorem takes_nextByte (context : String) (x : UInt8) : Takes (nextByte context) [x] x := by
  intro r rest hr
  have hbyte : r.bytes[r.position]? = some x := by
    rw [getElem?_position, hr]
    rfl
  simp only [nextByte, hbyte]
  rfl

theorem nextByte_of_unread_nil (context : String) {r : Reader} (hr : unread r = []) :
    nextByte context r = .error ⟨.unexpectedEnd, context⟩ r := by
  have hnone : r.bytes[r.position]? = none := by
    rw [getElem?_position, hr]
    rfl
  simp only [nextByte, hnone]

theorem takes_readVarint (context : String) (w : UInt32) :
    Takes (readVarint context) (Varint.encode w) w := by
  have hlt := w.toNat_lt
  have hread := Chain.takes_read_groups (takes_nextByte context) context 1 0
    (Varint.length_encode_le w) (by rw [UInt32.size]; omega)
  rw [List.flatMap_singleton', Nat.zero_add, Nat.mul_one, UInt32.ofNat_toNat] at hread
  rw [readVarint, Varint.read_eq]
  exact hread

instance : ReadsSpelling Reader spelling where
  takes_readWord := takes_readVarint "uint32"
  takes_readBool b := by
    have h := Takes.map (· != 0) (takes_nextByte "bool" b.toUInt8)
    cases b
    · exact h
    · exact h
  takes_readByte := takes_nextByte "byte"
  readWord_of_unread_nil _ hr := ⟨"uint32", bind_of_error (nextByte_of_unread_nil _ hr)⟩

end Reader

end Standard

end WordStream
