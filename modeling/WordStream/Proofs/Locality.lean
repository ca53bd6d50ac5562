import WordStream.Proofs.Sparse.Composition
import WordStream.Proofs.Sparse.Grammar
import WordStream.Proofs.Standard.Spelling
import WordStream.Proofs.Stream.Settling

/-!
# Decoding depends on the bytes that it consumes

In both formats, bytes before the place where reading begins and behind the place where it stops do not
matter: the result is the same, whether it is a list of values or an error, and only the place moves
along.  A failure for the want of more is the one result that more bytes can change.
-/

namespace WordStream

namespace Standard.Reader

theorem nextByte_settles (context : String) : Settles (nextByte context) := by
  intro r
  cases hr : unread r with
  | nil => exact .wants _ r (nextByte_of_unread_nil context hr) rfl
  | cons byte rest => exact .takes byte [byte] rest hr (takes_nextByte context byte)

theorem readWord_settles : Settles (readWord : ReadM Reader UInt32) :=
  Settles.compositional.varint _ (nextByte "uint32") (nextByte_settles "uint32") _

end Standard.Reader

namespace Sparse.Reader

theorem nextLogicalByte_settles : Settles nextLogicalByte := by
  intro r
  cases hbyte : r.logicalByte? with
  | none => exact .wants _ r (nextLogicalByte_of_short (length_of_logicalByte? hbyte)) rfl
  | some byte =>
      refine .takes byte (Bits.ofByte byte) ((unread r).drop 8) ?_ (takes_nextLogicalByte byte)
      rw [← take_of_logicalByte? hbyte, List.take_append_drop]

theorem readChain_settles : Settles readChain :=
  readChain_lawful Settles.compositional _ nextLogicalByte nextLogicalByte_settles _

/-- No chain is read off nothing. -/
theorem readChain_of_no_bytes :
    readChain ⟨#[], {}⟩ = .error ⟨.unexpectedEnd, "sparse value"⟩ ⟨#[], {}⟩ := rfl

/-- The flag is only looked at; but where it is set, the chain takes it with its first group. -/
theorem readWord_settles : Settles (readWord : ReadM Reader UInt32) := by
  intro r
  cases hr : unread r with
  | nil => exact .wants _ r (readWord_of_unread_nil hr) rfl
  | cons flag rest =>
      cases flag with
      | false => exact .takes 0 [false] rest hr (takes_code 0)
      | true =>
          cases readChain_settles r with
          | takes w taken behind hbits htakes =>
              cases taken with
              | nil =>
                  have hnone := htakes ⟨#[], {}⟩ [] rfl
                  rw [readChain_of_no_bytes] at hnone
                  cases hnone
              | cons bit taken =>
                  obtain ⟨rfl, -⟩ := List.cons.inj (hr.symm.trans hbits)
                  exact .takes w (true :: taken) behind hbits fun r' rest' hr' =>
                    (readWord_of_flag hr').trans (htakes r' rest' hr')
          | fails e taken behind hbits hfails =>
              cases taken with
              | nil =>
                  have hnone := hfails ⟨#[], {}⟩ [] rfl
                  rw [readChain_of_no_bytes] at hnone
                  cases hnone
                  exact .wants _ _ ((readWord_of_flag hr).trans (hfails r behind hbits)) rfl
              | cons bit taken =>
                  obtain ⟨rfl, -⟩ := List.cons.inj (hr.symm.trans hbits)
                  exact .fails e (true :: taken) behind hbits fun r' rest' hr' =>
                    (readWord_of_flag hr').trans (hfails r' rest' hr')
          | wants e s hrun hcause => exact .wants e s ((readWord_of_flag hr).trans hrun) hcause

end Sparse.Reader

/-! ## Bytes among others -/

theorem Standard.unread_among (before bytes behind : Array UInt8) :
    unread (Reader.mk (before ++ bytes ++ behind) before.size) =
      unread (Reader.mk bytes 0) ++ behind.toList := by
  change (before ++ bytes ++ behind).toList.drop before.size = bytes.toList.drop 0 ++ behind.toList
  rw [Array.toList_append, Array.toList_append, List.append_assoc, ← Array.length_toList,
    List.drop_left, List.drop_zero]

theorem Sparse.unread_among (before bytes behind : Array UInt8) :
    unread (Reader.mk (before ++ bytes ++ behind) ⟨before.size, .start⟩) =
      unread (Reader.mk bytes {}) ++ Bits.ofBytes behind.toList := by
  change (Bits.ofBytes (before ++ bytes ++ behind).toList).drop (8 * before.size) =
    (Bits.ofBytes bytes.toList).drop 0 ++ Bits.ofBytes behind.toList
  rw [Array.toList_append, Array.toList_append, List.append_assoc, Bits.ofBytes_append,
    ← Array.length_toList, ← Bits.length_ofBytes, List.drop_left, Bits.ofBytes_append,
    List.drop_zero]

/-- A cursor that begins at a byte moves as one does that begins at the first. -/
theorem Sparse.Cursor.atBit_add (byte n : Nat) :
    Cursor.atBit (8 * byte + n) = ⟨byte + (Cursor.atBit n).byte, (Cursor.atBit n).bit⟩ := by
  refine (Cursor.eq_atBit ?_).symm
  have hn := Cursor.bitPosition_atBit n
  simp only [Cursor.bitPosition] at *
  omega

/-- Reading values in either format gives the same, be it the values or an error, wherever their bytes
lie, as long as these do not end too early, and the reader ends at the same place, moved along with the
bytes.  So where bytes behind change what is read, it was a failure for the want of more. -/
theorem decoding_depends_on_consumed_bytes (before bytes behind : Array UInt8)
    (schema : List Kind) :
    let whole := before ++ bytes ++ behind
    (Definite (readValues schema (Standard.Reader.mk bytes 0)) →
      readValues schema (Standard.Reader.mk whole before.size) =
        resultAt (fun r => ⟨whole, before.size + r.position⟩)
          (readValues schema (Standard.Reader.mk bytes 0))) ∧
    (Definite (readValues schema (Sparse.Reader.mk bytes {})) →
      readValues schema (Sparse.Reader.mk whole ⟨before.size, .start⟩) =
        resultAt (fun r => ⟨whole, ⟨before.size + r.cursor.byte, r.cursor.bit⟩⟩)
          (readValues schema (Sparse.Reader.mk bytes {}))) ∧
    (outcome (readValues schema (Standard.Reader.mk (bytes ++ behind) 0)) ≠
        outcome (readValues schema (Standard.Reader.mk bytes 0)) →
      ∃ e, outcome (readValues schema (Standard.Reader.mk bytes 0)) = .error e ∧
        e.cause = .unexpectedEnd) ∧
    (outcome (readValues schema (Sparse.Reader.mk (bytes ++ behind) {})) ≠
        outcome (readValues schema (Sparse.Reader.mk bytes {})) →
      ∃ e, outcome (readValues schema (Sparse.Reader.mk bytes {})) = .error e ∧
        e.cause = .unexpectedEnd) := by
  intro whole
  have hstandard := Settles.readValues Standard.Reader.readWord_settles schema
  have hsparse := Settles.readValues Sparse.Reader.readWord_settles schema
  refine ⟨fun hdefinite => ?_, fun hdefinite => ?_, fun hne => ?_, fun hne => ?_⟩
  · refine hstandard.eq_of_definite (Standard.unread_among before bytes behind) (fun n => ?_) hdefinite
    change Standard.Reader.mk whole (before.size + (0 + n)) = ⟨whole, before.size + n⟩
    rw [Nat.zero_add]
  · refine hsparse.eq_of_definite (Sparse.unread_among before bytes behind) (fun n => ?_) hdefinite
    change Sparse.Reader.mk whole ⟨before.size + (Sparse.Cursor.atBit (0 + n)).byte,
      (Sparse.Cursor.atBit (0 + n)).bit⟩ = ⟨whole, .atBit (8 * before.size + n)⟩
    rw [Sparse.Cursor.atBit_add, Nat.zero_add]
  · exact hstandard.wants_of_outcome_ne
      (by simpa using Standard.unread_among #[] bytes behind) hne
  · exact hsparse.wants_of_outcome_ne
      (by simpa using Sparse.unread_among #[] bytes behind) hne

/-- Of the same five bytes the standard format makes a chain that is too long, the sparse format the
word of the first one, and neither looks at what lies around them; a chain that breaks off goes on with
the bytes behind it. -/
theorem decoding_depends_on_consumed_bytes_of_chains :
    Definite (readValues [.uint32] (Standard.Reader.mk #[0x81, 0x80, 0x80, 0x80, 0x80] 0)) ∧
    readValues [.uint32]
        (Standard.Reader.mk #[0xFF, 0x00, 0x81, 0x80, 0x80, 0x80, 0x80, 0x01] 2) =
      .error ⟨.tooLong, "uint32"⟩ ⟨#[0xFF, 0x00, 0x81, 0x80, 0x80, 0x80, 0x80, 0x01], 7⟩ ∧
    Definite (readValues [.uint32] (Sparse.Reader.mk #[0x81, 0x80, 0x80, 0x80, 0x80] {})) ∧
    readValues [.uint32]
        (Sparse.Reader.mk #[0xFF, 0x00, 0x81, 0x80, 0x80, 0x80, 0x80, 0x01] ⟨2, 0⟩) =
      .ok [.uint32 1] ⟨#[0xFF, 0x00, 0x81, 0x80, 0x80, 0x80, 0x80, 0x01], ⟨3, 0⟩⟩ ∧
    outcome (readValues [.uint32] (Standard.Reader.mk #[0xC0, 0x01] 0)) ≠
      outcome (readValues [.uint32] (Standard.Reader.mk #[0xC0] 0)) ∧
    (∃ e, outcome (readValues [.uint32] (Standard.Reader.mk #[0xC0] 0)) = .error e ∧
      e.cause = .unexpectedEnd) ∧
    outcome (readValues [.uint32] (Sparse.Reader.mk #[0xC0, 0x01] {})) ≠
      outcome (readValues [.uint32] (Sparse.Reader.mk #[0xC0] {})) ∧
    ∃ e, outcome (readValues [.uint32] (Sparse.Reader.mk #[0xC0] {})) = .error e ∧
      e.cause = .unexpectedEnd := by
  have hlong : Definite
      (readValues [.uint32] (Standard.Reader.mk #[0x81, 0x80, 0x80, 0x80, 0x80] 0)) := by
    intro e r hrun
    cases hrun
    decide
  have hword : Definite
      (readValues [.uint32] (Sparse.Reader.mk #[0x81, 0x80, 0x80, 0x80, 0x80] {})) := by
    intro e r hrun
    cases hrun
  have hmore : outcome (readValues [.uint32] (Standard.Reader.mk #[0xC0, 0x01] 0)) ≠
      outcome (readValues [.uint32] (Standard.Reader.mk #[0xC0] 0)) := by
    intro h
    cases h
  have hmore' : outcome (readValues [.uint32] (Sparse.Reader.mk #[0xC0, 0x01] {})) ≠
      outcome (readValues [.uint32] (Sparse.Reader.mk #[0xC0] {})) := by
    intro h
    cases h
  obtain ⟨hstandard, hsparse, -⟩ := decoding_depends_on_consumed_bytes #[0xFF, 0x00]
    #[0x81, 0x80, 0x80, 0x80, 0x80] #[0x01] [.uint32]
  obtain ⟨-, -, hwants, hwants'⟩ :=
    decoding_depends_on_consumed_bytes #[] #[0xC0] #[0x01] [.uint32]
  exact ⟨hlong, hstandard hlong, hword, hsparse hword, hmore, hwants hmore, hmore', hwants' hmore'⟩

end WordStream
