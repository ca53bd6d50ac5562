import WordStream.Proofs.RoundTrip
import WordStream.Proofs.Stream.Simulation

/-!
# Reading under any schema

The words of the values that were written are all that a reader of either format knows of them.  A
schema of any kinds, the ones that were written or not, and of any length, gives over an encoding
what it gives over the plain list of these words.  In the sparse format the zeros that fill the last
byte count as words of their own, since zero is the word of one bit.
-/

namespace WordStream

/-- Values are written by their words, in the spelling of the format. -/
theorem runOn_writeValues {σ β : Type} [SymbolSink σ β] [WordWriter σ] {spelling : Spelling β}
    [WritesSpelling σ spelling] {start : Except Fault σ}
    (hstart : Delivers start fun s => Valid s ∧ written s = []) (values : List Value)
    (hgranted : AllocationGranted (runOn start (writeValues values))) :
    ∃ s, runOn start (writeValues values) = .ok ((), s) ∧ Valid s ∧
      written s = spelling.words (values.flatMap Value.toWords) := by
  have hrun := hstart.runOn fun s ⟨hs, hnone⟩ => by
    have h := appends_writeValues values s hs
    rw [hnone] at h
    exact h
  obtain ⟨⟨_, s⟩, hok, hs, hwritten⟩ := hrun.exists_ok hgranted
  exact ⟨s, hok, hs, hwritten⟩

theorem Sparse.words_replicate_zero (n : Nat) :
    Sparse.spelling.words (List.replicate n 0) = List.replicate n false := by
  induction n with
  | zero => rfl
  | succ n ih =>
      rw [List.replicate_succ, Spelling.words_cons, ih]
      rfl

/-- The bytes of a standard writer hold the words that were written, and nothing else. -/
theorem Standard.sameWords_toBytes {w : Writer} {ws : List UInt32}
    (h : written w = spelling.words ws) :
    SameWords spelling WordQueue.spelling (Reader.mk w.toBytes 0) (WordQueue.mk ws) :=
  ⟨ws, by rw [unread_toBytes, h], (WordQueue.words_spelling ws).symm⟩

/-- The bytes of a sparse writer hold the words that were written, and a zero for every bit that the
last byte has left. -/
theorem Sparse.sameWords_toBytes {w : Writer} {ws : List UInt32} (hw : w.Sound)
    (h : w.bits = spelling.words ws) :
    SameWords spelling WordQueue.spelling (Reader.mk w.toBytes {})
      (WordQueue.mk (ws ++ List.replicate ((8 - w.cursor.bit.val) % 8) 0)) := by
  refine ⟨ws ++ List.replicate ((8 - w.cursor.bit.val) % 8) 0, ?_,
    (WordQueue.words_spelling _).symm⟩
  rw [unread_toBytes hw, Bits.aligned, Writer.length_bits_mod hw, Spelling.words_append,
    words_replicate_zero, h]
  rfl

/-- Under every schema, the encodings of values in both formats are read as the words of the values
are, the sparse one with as many zeros after them as there are bits left in its last byte. -/
theorem readValues_sees_words (capacity capacity' : Nat) (values : List Value)
    (hstandard : AllocationGranted
      (runOn (Standard.Writer.withCapacity capacity) (writeValues values)))
    (hsparse : AllocationGranted
      (runOn (Sparse.Writer.withCapacity capacity') (writeValues values))) :
    ∃ w v q,
      runOn (Standard.Writer.withCapacity capacity) (writeValues values) = .ok ((), w) ∧
      runOn (Sparse.Writer.withCapacity capacity') (writeValues values) = .ok ((), v) ∧
      writeValues values WordQueue.empty = .ok () q ∧
      ∀ schema,
        outcome (readValues schema (Standard.Reader.mk w.toBytes 0)) =
          outcome (readValues schema q) ∧
        outcome (readValues schema (Sparse.Reader.mk v.toBytes {})) =
          outcome (readValues schema (WordQueue.mk
            (q.words ++ List.replicate ((8 - v.cursor.bit.val) % 8) 0))) := by
  obtain ⟨w, hw, -, hwritten⟩ :=
    runOn_writeValues (Standard.Writer.withCapacity_delivers capacity) values hstandard
  obtain ⟨v, hv, hsound, hbits⟩ :=
    runOn_writeValues (Sparse.Writer.withCapacity_delivers capacity') values hsparse
  refine ⟨w, v, _, hw, hv, WordQueue.writeValues_ok values .empty, fun schema => ⟨?_, ?_⟩⟩
  · exact outcome_readValues schema (Standard.sameWords_toBytes hwritten)
  · exact outcome_readValues schema (Sparse.sameWords_toBytes hsound hbits)

/-- A long, a zero and a float, of no capacity.  They are four words, and seven bits are left behind them in
the sparse format.  A schema may cut the long in two, and take the float for a word; one that reads on comes
to the end of the standard encoding, but in the sparse one finds seven zeros first. -/
theorem readValues_sees_words_of_long :
    ∃ w v q,
      runOn (Standard.Writer.withCapacity 0)
        (writeValues [.int64 (-3), .uint32 0, .float32 0x7FA00001]) = .ok ((), w) ∧
      runOn (Sparse.Writer.withCapacity 0)
        (writeValues [.int64 (-3), .uint32 0, .float32 0x7FA00001]) = .ok ((), v) ∧
      writeValues [.int64 (-3), .uint32 0, .float32 0x7FA00001] WordQueue.empty = .ok () q ∧
      q.words = [5, 1, 0, 0x800005FE] ∧ v.cursor.bit.val = 1 ∧
      outcome (readValues [.int32, .uint32, .int32, .uint32] (Standard.Reader.mk w.toBytes 0)) =
        .ok [.int32 (-3), .uint32 1, .int32 0, .uint32 0x800005FE] ∧
      outcome (readValues [.int32, .uint32, .int32, .uint32] (Sparse.Reader.mk v.toBytes {})) =
        .ok [.int32 (-3), .uint32 1, .int32 0, .uint32 0x800005FE] ∧
      outcome (readValues [.float64, .int64, .float64] (Standard.Reader.mk w.toBytes 0)) =
        .error ⟨.unexpectedEnd, "float64"⟩ ∧
      outcome (readValues [.float64, .int64, .float64] (Sparse.Reader.mk v.toBytes {})) =
        .ok [.float64 0x80000000A0000000, .int64 0x400002FF00000000, .float64 0] ∧
      outcome (readValues (List.replicate 12 .uint32) (Sparse.Reader.mk v.toBytes {})) =
        .error ⟨.unexpectedEnd, "uint32"⟩ := by
  obtain ⟨w, v, q, hw, hv, hq, hsees⟩ :=
    readValues_sees_words 0 0 [.int64 (-3), .uint32 0, .float32 0x7FA00001] (by decide +kernel)
      (by decide +kernel)
  have hwords : q.words = [5, 1, 0, 0x800005FE] := by
    cases hq
    decide +kernel
  have hbit : v.cursor.bit.val = 1 :=
    of_toOption_map (fun x => x.2.cursor.bit.val) hv (by decide +kernel)
  obtain ⟨words⟩ := q
  obtain rfl : words = [5, 1, 0, 0x800005FE] := hwords
  rw [hbit] at hsees
  refine ⟨w, v, _, hw, hv, hq, rfl, hbit, ?_, ?_, ?_, ?_, ?_⟩
  · exact (hsees _).1.trans (by decide +kernel)
  · exact (hsees _).2.trans (by decide +kernel)
  · exact (hsees _).1.trans (by decide +kernel)
  · exact (hsees _).2.trans (by decide +kernel)
  · exact (hsees _).2.trans (by decide +kernel)

end WordStream
