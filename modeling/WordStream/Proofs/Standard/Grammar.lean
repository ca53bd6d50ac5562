import WordStream.Proofs.Chain.Judgement
import WordStream.Proofs.Standard.Spelling

/-!
# The grammar of the standard format

A varint is a chain of at most five bytes, the fifth with four bits of its own.  Over any bytes, from
any position, the reader gives the number of the varint there, or tells in which way there is none;
overlong varints are read like the shortest one, and no bit of a number is lost.
-/

namespace WordStream

/-- The layout of a varint: seven bits a byte, the low ones first, and four in the fifth byte. -/
def Varint.layout : Chain.Layout := .uniform 4 0 16

namespace Standard.Reader

theorem nextByte_takesGroups (context : String) :
    TakesGroups (nextByte context) 1 (fun x => [x]) context where
  length_spell _ := rfl
  takes := takes_nextByte context
  ends _ hr := nextByte_of_unread_nil context (List.eq_nil_of_length_eq_zero (by omega))

theorem readVarint_judges (context : String) (r : Reader) :
    Judges Varint.layout 1 context (unread r) 0 (readVarint context) r := by
  have hahead : unread r = (unread r).flatMap (fun x => [x]) ++ [] := by
    rw [List.flatMap_singleton', List.append_nil]
  rw [readVarint, Varint.read_eq]
  exact Chain.judges_read (nextByte_takesGroups context) hahead (by decide) (by decide) rfl

theorem skip_eq (n : Nat) (bytes : Array UInt8) (position : Nat) :
    skip (1 * n) (Reader.mk bytes position) = ⟨bytes, position + n⟩ := by
  rw [Nat.one_mul]
  rfl

end Standard.Reader

/-- Over any bytes, from any position and under any name, reading gives exactly what the grammar of
varints says of the bytes ahead. -/
theorem Standard.readVarint_by_grammar (context : String) (bytes : Array UInt8) (position : Nat) :
    let ahead := bytes.toList.drop position
    let read := Reader.readVarint context ⟨bytes, position⟩
    (∀ w r, read = .ok w r ↔
      ∃ n, Varint.layout.EndsAt ahead n ∧ w.toNat = Varint.layout.number ahead (n + 1) ∧
        r = ⟨bytes, position + (n + 1)⟩) ∧
    ∀ e r, read = .error e r ↔
      (e = ⟨.overflow, context⟩ ∧ Varint.layout.Overflows ahead ∧ r = ⟨bytes, position + 5⟩) ∨
      (e = ⟨.tooLong, context⟩ ∧ Varint.layout.GoesOn ahead ∧ r = ⟨bytes, position + 5⟩) ∨
      (e = ⟨.unexpectedEnd, context⟩ ∧ Varint.layout.BreaksOff ahead ∧
        r = ⟨bytes, max position bytes.size⟩) := by
  intro ahead read
  have hjudges := Reader.readVarint_judges context ⟨bytes, position⟩
  have hend : position + ahead.length = max position bytes.size := by
    simp only [ahead, List.length_drop, Array.length_toList]
    omega
  constructor
  · intro w r
    refine (hjudges.ok_iff w r).trans ?_
    simp only [Reader.skip_eq, Nat.zero_add]
    exact Iff.rfl
  · intro e r
    refine (hjudges.error_iff e r).trans ?_
    rw [← hend]
    simp only [Reader.skip_eq]
    exact Iff.rfl

end WordStream
