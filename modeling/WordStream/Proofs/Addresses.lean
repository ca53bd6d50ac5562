import WordStream.Proofs.Sparse.Composition
import WordStream.Proofs.Sparse.Reader
import WordStream.Proofs.Sparse.Steps
import WordStream.Proofs.Standard.Spelling
import WordStream.Proofs.Stream.Extent

/-!
# Positions as machine words

A program counts its positions in words of 64 bits, and the bits of a byte in one byte; both would wrap
around.  A reader that counts in this way stays in step with the one that counts without bound, so that
nothing ever wraps around: whatever it is asked for, it has come to a number only from inside of the
bytes, which are no more than the largest allocation.
-/

namespace WordStream

theorem toNat_succ_of_inside {size : Nat} (hsize : size ≤ Limits.maxAllocation) {position : UInt64}
    (h : position.toNat < size) : (position + 1).toNat = position.toNat + 1 := by
  have hbound := Nat.lt_of_lt_of_le h hsize
  rw [UInt64.toNat_add]
  exact Nat.mod_eq_of_lt (Nat.lt_trans (Nat.succ_lt_succ hbound) (by decide))

/-! ## The standard format -/

namespace Standard

/-- A reader whose position is a machine word. -/
structure MachineReader where
  bytes : Array UInt8
  position : UInt64

namespace MachineReader

def nextByte (context : String) : ReadM MachineReader UInt8 := fun m =>
  match m.bytes[m.position.toNat]? with
  | some byte => .ok byte { m with position := m.position + 1 }
  | none => .error ⟨.unexpectedEnd, context⟩ m

instance : WordReader MachineReader where
  readWord := Varint.read (nextByte "uint32") "uint32"
  readBool := do return (← nextByte "bool") != 0
  readByte := nextByte "byte"

/-- The place of the reader. -/
def place (m : MachineReader) : Nat := m.position.toNat

/-- A machine reader at the position of a reader of the same bytes. -/
structure Addresses (r : Reader) (m : MachineReader) : Prop where
  size_le : r.bytes.size ≤ Limits.maxAllocation
  bytes : m.bytes = r.bytes
  position : m.position.toNat = r.position

theorem nextByte_inStep (context : String) :
    InStep Addresses Eq (Reader.nextByte context) (nextByte context) := by
  intro r m h
  have hlook : m.bytes[m.position.toNat]? = r.bytes[r.position]? := by
    rw [h.bytes, h.position]
  cases hbyte : r.bytes[r.position]? with
  | none =>
      have hrun : Reader.nextByte context r = .error ⟨.unexpectedEnd, context⟩ r := by
        simp only [Reader.nextByte, hbyte]
      have hrun' : nextByte context m = .error ⟨.unexpectedEnd, context⟩ m := by
        simp only [nextByte, hlook, hbyte]
      exact .inr ⟨_, _, r, m, hrun, hrun', rfl, h⟩
  | some byte =>
      have hinside : m.position.toNat < r.bytes.size := by
        rw [h.position]
        exact (Array.getElem?_eq_some_iff.mp hbyte).1
      have hrun : Reader.nextByte context r = .ok byte { r with position := r.position + 1 } := by
        simp only [Reader.nextByte, hbyte]
      have hrun' : nextByte context m = .ok byte { m with position := m.position + 1 } := by
        simp only [nextByte, hlook, hbyte]
      refine .inl ⟨byte, _, _, hrun, hrun', h.size_le, h.bytes, ?_⟩
      change (m.position + 1).toNat = r.position + 1
      rw [toNat_succ_of_inside h.size_le hinside, h.position]

/-- A machine reader stays in step with a reader in unbounded numbers, whatever is asked for. -/
theorem read_inStep (request : Request) :
    InStep Addresses Eq (request.read : ReadM Reader (List Item)) request.read :=
  have hc : Compositional fun α (act : ReadM Reader α) (act' : ReadM MachineReader α) =>
      InStep Addresses Eq act act' := InStep.compositional fun _ => rfl
  request.read_inStep (hc.varint _ _ (nextByte_inStep "uint32") _)
    (hc.map (· != 0) (nextByte_inStep "bool")) (nextByte_inStep "byte")

end MachineReader

end Standard

/-! ## The sparse format -/

namespace Sparse

/-- What a sparse reader can be asked for: besides what any reader can, whether a zero is next. -/
inductive Request where
  | typed (request : WordStream.Request)
  | zero
  deriving DecidableEq

namespace Request

/-- Carry the request out, where `readZero` is the read of a zero. -/
def read {ρ : Type} [WordReader ρ] (readZero : ReadM ρ Bool) : Request → ReadM ρ (List Item)
  | typed request => request.read
  | zero => return [.bool (← readZero)]

/-- Whether anything is asked for. -/
def asks : Request → Bool
  | typed request => request.asks
  | zero => true

end Request

/-- A reader whose cursor is a machine word and a byte. -/
structure MachineReader where
  bytes : Array UInt8
  byte : UInt64
  bit : UInt8

namespace MachineReader

/-- The reader one bit further. -/
def advanceBit (m : MachineReader) : MachineReader :=
  if m.bit + 1 = 8 then { m with byte := m.byte + 1, bit := 0 } else { m with bit := m.bit + 1 }

def flag? (m : MachineReader) : Option Bool :=
  m.bytes[m.byte.toNat]?.map fun byte => Bits.bitAt byte m.bit.toNat

def logicalByte? (m : MachineReader) : Option UInt8 := do
  let high ← m.bytes[m.byte.toNat]?
  if m.bit = 0 then return high
  let low ← m.bytes[(m.byte + 1).toNat]?
  return (high <<< m.bit) ||| (low >>> (8 - m.bit))

def readZero : ReadM MachineReader Bool := fun m =>
  match m.flag? with
  | some true => .ok false m
  | some false => .ok true m.advanceBit
  | none => .error ⟨.unexpectedEnd, "zero flag"⟩ m

def nextLogicalByte : ReadM MachineReader UInt8 := fun m =>
  match m.logicalByte? with
  | some byte => .ok byte { m with byte := m.byte + 1 }
  | none => .error ⟨.unexpectedEnd, "sparse value"⟩ m

instance : WordReader MachineReader where
  readWord := do if ← readZero then return 0 else readChain nextLogicalByte "sparse value"

/-- The place of the reader, in bits. -/
def place (m : MachineReader) : Nat := 8 * m.byte.toNat + m.bit.toNat

/-- A machine reader at the cursor of a reader of the same bytes. -/
structure Addresses (r : Reader) (m : MachineReader) : Prop where
  size_le : r.bytes.size ≤ Limits.maxAllocation
  bytes : m.bytes = r.bytes
  byte : m.byte.toNat = r.cursor.byte
  bit : m.bit.toNat = r.cursor.bit.val

namespace Addresses

variable {r : Reader} {m : MachineReader} (h : Addresses r m)

include h

theorem bit_eq : m.bit = UInt8.ofNat r.cursor.bit.val := by
  rw [← h.bit, UInt8.ofNat_toNat]

theorem high_eq : m.bytes[m.byte.toNat]? = r.bytes[r.cursor.byte]? := by
  rw [h.bytes, h.byte]

theorem flag?_eq : m.flag? = r.flag? := by
  rw [flag?, h.high_eq, h.bit]
  rfl

theorem toNat_next (hinside : r.cursor.byte < r.bytes.size) :
    (m.byte + 1).toNat = r.cursor.byte + 1 := by
  rw [← h.byte] at hinside ⊢
  exact toNat_succ_of_inside h.size_le hinside

/-- The second of the two bytes is looked for only where the first one is, so behind no other address. -/
theorem logicalByte?_eq : m.logicalByte? = r.logicalByte? := by
  have hbit := r.cursor.bit.isLt
  rw [logicalByte?, Reader.logicalByte?, h.high_eq]
  cases hhigh : r.bytes[r.cursor.byte]? with
  | none => rfl
  | some high =>
      have hnext := h.toNat_next (Array.getElem?_eq_some_iff.mp hhigh).1
      have hzero : m.bit = 0 ↔ r.cursor.bit.val = 0 := by
        rw [← h.bit]
        exact UInt8.toNat_inj.symm
      have hrest : 8 - m.bit = UInt8.ofNat (8 - r.cursor.bit.val) := by
        rw [h.bit_eq, UInt8.ofNat_sub (Nat.le_of_lt hbit)]
        rfl
      simp only [hzero, hnext, h.bytes, hrest]
      rw [h.bit_eq]

/-- The reader's cursor is a machine cursor, and goes on as one. -/
theorem advanceBit (hinside : r.cursor.byte < r.bytes.size) :
    Addresses { r with cursor := r.cursor.advanceBit } m.advanceBit := by
  have hat : (MachineCursor.mk m.byte m.bit).IsAt r.cursor := ⟨h.byte, h.bit⟩
  have hmove : m.advanceBit =
      ⟨m.bytes, (MachineCursor.mk m.byte m.bit).advanceBit.2.byte,
        (MachineCursor.mk m.byte m.bit).advanceBit.2.bit⟩ := by
    simp only [MachineReader.advanceBit, MachineCursor.advanceBit]
    split
    · rfl
    · rfl
  have hrange : (r.cursor.advance .bit).byte < 2 ^ 64 := by
    have hsize := h.size_le
    have hbound : Limits.maxAllocation + 1 < 2 ^ 64 := by decide
    rw [Cursor.byte_eq_div, Cursor.bitPosition_advance]
    rw [Cursor.byte_eq_div] at hinside
    simp only [Step.width]
    omega
  have hstep := hat.advance hrange
  rw [hmove]
  exact ⟨h.size_le, h.bytes, hstep.byte, hstep.bit⟩

end Addresses

theorem readZero_inStep : InStep Addresses Eq Reader.readZero readZero := by
  intro r m h
  have hlook := h.flag?_eq
  cases hflag : r.flag? with
  | none =>
      have hrun : Reader.readZero r = .error ⟨.unexpectedEnd, "zero flag"⟩ r := by
        simp only [Reader.readZero, hflag]
      have hrun' : readZero m = .error ⟨.unexpectedEnd, "zero flag"⟩ m := by
        simp only [readZero, hlook, hflag]
      exact .inr ⟨_, _, r, m, hrun, hrun', rfl, h⟩
  | some flag =>
      obtain ⟨byte, hbyte, -⟩ := Option.map_eq_some_iff.mp hflag
      have hinside := (Array.getElem?_eq_some_iff.mp hbyte).1
      cases flag with
      | true =>
          have hrun : Reader.readZero r = .ok false r := by
            simp only [Reader.readZero, hflag]
          have hrun' : readZero m = .ok false m := by
            simp only [readZero, hlook, hflag]
          exact .inl ⟨false, r, m, hrun, hrun', h⟩
      | false =>
          have hrun : Reader.readZero r = .ok true { r with cursor := r.cursor.advanceBit } := by
            simp only [Reader.readZero, hflag]
          have hrun' : readZero m = .ok true m.advanceBit := by
            simp only [readZero, hlook, hflag]
          exact .inl ⟨true, _, _, hrun, hrun', h.advanceBit hinside⟩

theorem nextLogicalByte_inStep :
    InStep Addresses Eq Reader.nextLogicalByte nextLogicalByte := by
  intro r m h
  have hlook := h.logicalByte?_eq
  cases hbyte : r.logicalByte? with
  | none =>
      have hrun : Reader.nextLogicalByte r = .error ⟨.unexpectedEnd, "sparse value"⟩ r := by
        simp only [Reader.nextLogicalByte, hbyte]
      have hrun' : nextLogicalByte m = .error ⟨.unexpectedEnd, "sparse value"⟩ m := by
        simp only [nextLogicalByte, hlook, hbyte]
      exact .inr ⟨_, _, r, m, hrun, hrun', rfl, h⟩
  | some byte =>
      have hrun : Reader.nextLogicalByte r =
          .ok byte { r with cursor := r.cursor.advanceByte } := by
        simp only [Reader.nextLogicalByte, hbyte]
      have hrun' : nextLogicalByte m = .ok byte { m with byte := m.byte + 1 } := by
        simp only [nextLogicalByte, hlook, hbyte]
      obtain ⟨high, hhigh, -⟩ := Option.bind_eq_some_iff.mp hbyte
      have hnext := h.toNat_next (Array.getElem?_eq_some_iff.mp hhigh).1
      exact .inl ⟨byte, _, _, hrun, hrun', h.size_le, h.bytes, hnext, h.bit⟩

theorem readWord_inStep :
    InStep Addresses Eq (readWord : ReadM Reader UInt32) (readWord : ReadM MachineReader UInt32) := by
  have hc : Compositional fun α (act : ReadM Reader α) (act' : ReadM MachineReader α) =>
      InStep Addresses Eq act act' := InStep.compositional fun _ => rfl
  exact wordFrom_lawful hc _ _ nextLogicalByte_inStep _ _ readZero_inStep

/-- A machine reader stays in step with a reader in unbounded numbers, whatever is asked for. -/
theorem read_inStep (request : Request) :
    InStep Addresses Eq (request.read Reader.readZero) (request.read readZero) := by
  have hc : Compositional fun α (act : ReadM Reader α) (act' : ReadM MachineReader α) =>
      InStep Addresses Eq act act' := InStep.compositional fun _ => rfl
  cases request with
  | typed request =>
      exact request.read_inStep readWord_inStep (hc.map (· != 0) readWord_inStep)
        (hc.map UInt32.toUInt8 readWord_inStep)
  | zero => exact hc.map (fun isZero => [Item.bool isZero]) readZero_inStep

end MachineReader

end Sparse

end WordStream
