import WordStream.Proofs.Sparse.Reader
import WordStream.Proofs.Sparse.Writer
import WordStream.Proofs.Standard.Spelling
import WordStream.Proofs.Stream.Items
import WordStream.Proofs.Stream.Runs

/-!
# What is written is read back

In both formats, a reader of the bytes of a writer that makes the answering calls in the same order
gets every argument back.  It also comes past the same places: after each read its cursor is where
that of the writer was after the write.
-/

namespace WordStream

namespace Standard

theorem unread_toBytes (w : Writer) : unread (Reader.mk w.toBytes 0) = written w := rfl

theorem reader_follows :
    Follows Writer.length Reader.position (fun n => n) (fun w => Reader.mk w.toBytes 0) where
  unread_finish w _ := ⟨[], by rw [unread_toBytes, List.append_nil]⟩
  place_writer _ hw := Writer.length_eq_written hw
  place_reader _ n := Nat.zero_add n

/-- Items written in the standard format are read back by their calls; the reader comes past the same
positions, and it ends where no byte is left. -/
theorem reads_back_items (capacity : Nat) (items : List Item)
    (hgranted : AllocationGranted (runOn (Writer.withCapacity capacity)
      (traced Writer.length (items.map Item.write)))) :
    ∃ writes w reads r,
      runOn (Writer.withCapacity capacity) (traced Writer.length (items.map Item.write)) =
        .ok (writes, w) ∧
      traced Reader.position (items.map fun item => item.type.read) ⟨w.toBytes, 0⟩ =
        .ok reads r ∧
      reads.map Prod.fst = items ∧ reads.map Prod.snd = writes.map Prod.snd ∧
      r.isEmpty = true := by
  obtain ⟨writes, w, reads, hwrites, -, hreads, hanswers, hplaces⟩ :=
    reader_follows.reads_back Item.appends_write Item.takes_read
      (Writer.withCapacity_delivers capacity) items hgranted
  refine ⟨writes, w, reads, _, hwrites, hreads, ?_, hplaces, ?_⟩
  · rw [hanswers, List.map_id']
  · have hend : w.toBytes.size ≤ 0 + (written w).length := by
      rw [Nat.zero_add, ← unread_toBytes]
      exact Nat.le_refl _
    exact decide_eq_true hend

/-- The shortest and the longest spellings, raw bytes between them, from no capacity at all. -/
theorem reads_back_nan_between_bytes :
    ∃ writes w reads r,
      runOn (Writer.withCapacity 0) (traced Writer.length
        ([.word 0, .byte 255, .float 0x7FA00001, .bool true, .double 0x8000000000000000,
          .short (-1)].map Item.write)) = .ok (writes, w) ∧
      traced Reader.position ([.word, .byte, .float, .bool, .double, .short].map ItemType.read)
        ⟨w.toBytes, 0⟩ = .ok reads r ∧
      reads.map Prod.fst = [.word 0, .byte 255, .float 0x7FA00001, .bool true,
        .double 0x8000000000000000, .short (-1)] ∧
      reads.map Prod.snd = writes.map Prod.snd ∧ r.isEmpty = true :=
  reads_back_items 0 _ (by decide +kernel)

end Standard

namespace Sparse

theorem unread_toBytes {w : Writer} (h : w.Sound) :
    unread (Reader.mk w.toBytes {}) = Bits.aligned w.bits := by
  change (Bits.ofBytes w.toBytes.toList).drop 0 = _
  rw [List.drop_zero, Writer.ofBytes_toBytes h]

theorem reader_follows :
    Follows Writer.cursor Reader.cursor Cursor.atBit (fun w => Reader.mk w.toBytes {}) where
  unread_finish _ hw := ⟨_, unread_toBytes hw⟩
  place_writer _ hw := Writer.cursor_eq_atBit hw
  place_reader _ n := congrArg Cursor.atBit (Nat.zero_add n)

/-- A write to the sparse format, with the read that is to answer it: a zero written as one can be
asked for as such, or read as a word. -/
inductive Exchange where
  | typed (item : Item)
  | zeroAsFlag
  | zeroAsWord
  deriving DecidableEq

namespace Exchange

def write : Exchange → WriteM Writer Unit
  | typed item => item.write
  | zeroAsFlag => Writer.writeZero
  | zeroAsWord => Writer.writeZero

def read : Exchange → ReadM Reader Item
  | typed item => item.type.read
  | zeroAsFlag => return .bool (← Reader.readZero)
  | zeroAsWord => return .word (← readWord)

/-- What the read is to give: the argument of the write, and for a zero that it is one. -/
def answer : Exchange → Item
  | typed item => item
  | zeroAsFlag => .bool true
  | zeroAsWord => .word 0

def bits : Exchange → List Bool
  | typed item => item.spelled spelling
  | zeroAsFlag => [false]
  | zeroAsWord => [false]

theorem appends_write (exchange : Exchange) : Appends exchange.write exchange.bits := by
  cases exchange with
  | typed item => exact item.appends_write
  | zeroAsFlag => exact Writer.appends_writeZero
  | zeroAsWord => exact Writer.appends_writeZero

theorem takes_read (exchange : Exchange) : Takes exchange.read exchange.bits exchange.answer := by
  cases exchange with
  | typed item => exact item.takes_read
  | zeroAsFlag => exact Takes.map Item.bool Reader.takes_readZero
  | zeroAsWord => exact Takes.map Item.word (Reader.takes_code 0)

end Exchange

/-- Exchanges in the sparse format give every answer, and after each read the cursor is where that of
the writer was after the write. -/
theorem reads_back_exchanges (capacity : Nat) (exchanges : List Exchange)
    (hgranted : AllocationGranted (runOn (Writer.withCapacity capacity)
      (traced Writer.cursor (exchanges.map Exchange.write)))) :
    ∃ writes w reads r,
      runOn (Writer.withCapacity capacity) (traced Writer.cursor (exchanges.map Exchange.write)) =
        .ok (writes, w) ∧
      traced Reader.cursor (exchanges.map Exchange.read) ⟨w.toBytes, {}⟩ = .ok reads r ∧
      reads.map Prod.fst = exchanges.map Exchange.answer ∧
      reads.map Prod.snd = writes.map Prod.snd := by
  obtain ⟨writes, w, reads, hwrites, -, hreads, hanswers, hcursors⟩ :=
    reader_follows.reads_back Exchange.appends_write Exchange.takes_read
      (Writer.withCapacity_delivers capacity) exchanges hgranted
  exact ⟨writes, w, reads, _, hwrites, hreads, hanswers, hcursors⟩

/-- Zeros of both readings around words that straddle bytes, from no capacity at all. -/
theorem reads_back_words_between_zeros :
    ∃ writes w reads r,
      runOn (Writer.withCapacity 0) (traced Writer.cursor
        ([.zeroAsFlag, .typed (.float 0x7FA00001), .zeroAsWord, .typed (.value (.int64 (-2))),
          .typed (.bool false), .typed (.word 64)].map Exchange.write)) = .ok (writes, w) ∧
      traced Reader.cursor
        ([.zeroAsFlag, .typed (.float 0x7FA00001), .zeroAsWord, .typed (.value (.int64 (-2))),
          .typed (.bool false), .typed (.word 64)].map Exchange.read) ⟨w.toBytes, {}⟩ =
        .ok reads r ∧
      reads.map Prod.fst = [.bool true, .float 0x7FA00001, .word 0, .value (.int64 (-2)),
        .bool false, .word 64] ∧
      reads.map Prod.snd = writes.map Prod.snd :=
  reads_back_exchanges 0 _ (by decide +kernel)

end Sparse

end WordStream
