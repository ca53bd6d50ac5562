import WordStream.Proofs.RoundTrip
import WordStream.Proofs.Sparse.Grammar
import WordStream.Proofs.Standard.Grammar
import WordStream.Proofs.Stream.Truncation

/-!
# Truncation is always detected

Whatever number of bytes is left of the encoding of some values, their reader does not take it for a
whole one in either format: it gives the values that are still there, and fails for the want of more
at the first that is not, having come as far as a whole group can take it.
-/

namespace WordStream

namespace Standard.Reader

/-- The bytes of a varint that is cut off all announce another one. -/
instance : StarvesOnWords Reader spelling 1 where
  starves_readWord w r missing hne hr := by
    have hword : unread r ++ missing = Chain.groups w.toNat := hr
    have hlength := Varint.length_encode_le w
    rw [Varint.encode, ← hword] at hlength
    have hmore := Chain.continues_groups 4 0 16 w.toNat
    rw [← hword] at hmore
    have hread := (readVarint_judges "uint32" r).error_of_breaksOff
      (Chain.Layout.breaksOff_of_append hne hmore hlength)
    rw [Nat.one_mul] at hread
    exact ⟨"uint32", _, hread, Nat.le_refl _, Nat.lt_succ_self _⟩

end Standard.Reader

namespace Standard

/-- A reader of the first bytes has the first symbols ahead. -/
theorem unread_take (w : Writer) (k : Nat) :
    unread (Reader.mk (w.toBytes.take k) 0) = (written w).take k := by
  change (w.toBytes.take k).toList.drop 0 = w.toBytes.toList.take k
  simp

/-- What is left of the standard encoding of values is read up to its last byte. -/
theorem detects_cut (capacity : Nat) (values : List Value)
    (hgranted : AllocationGranted (runOn (Writer.withCapacity capacity)
      (traced Writer.length (values.map writeValue)))) :
    ∃ writes w, runOn (Writer.withCapacity capacity) (traced Writer.length (values.map writeValue)) =
        .ok (writes, w) ∧
      ∀ k < w.toBytes.size, ∃ r, DetectsCut Reader.position (· ≤ k) values (writes.map Prod.snd)
          ⟨w.toBytes.take k, 0⟩ r ∧ r.position = k := by
  obtain ⟨writes, w, hok, -, hwritten, hends⟩ := exists_runOn_traced (fun n => n) appends_value
    reader_follows.place_writer (Writer.withCapacity_delivers capacity) values hgranted
  refine ⟨writes, w, hok, fun k hk => ?_⟩
  have hkept : k < (values.flatMap spelling.value).length := by
    rwa [← hwritten, ← unread_toBytes]
  have hunread := unread_take w k
  rw [hwritten] at hunread
  obtain ⟨n, hdetects, hle, hlt⟩ := detectsCut_of_take Reader.position (fun n => n) (· ≤ k) hkept
    hunread Nat.zero_add (fun _ => Iff.rfl)
  rw [← hends] at hdetects
  refine ⟨_, hdetects, ?_⟩
  change 0 + n = k
  omega

end Standard

namespace Sparse.Reader

/-- The whole groups of a code that is cut off all announce another one; where the cut comes before
its flag, that is missing. -/
instance : StarvesOnWords Reader spelling 8 where
  starves_readWord w r missing hne hr := by
    have hcode : unread r ++ missing = code w.toNat := hr
    cases hbits : unread r with
    | nil =>
        refine ⟨"zero flag", 0, ?_, Nat.le_refl _, by decide⟩
        rw [skip_zero]
        exact readWord_of_unread_nil hbits
    | cons bit bits =>
        rw [hbits] at hcode
        have hw : w ≠ 0 := by
          rintro rfl
          exact absurd (List.append_eq_nil_iff.mp (List.cons.inj hcode).2).2 hne
        rw [code_eq_cons hw] at hcode
        obtain ⟨rfl, -⟩ := List.cons.inj hcode
        rw [← code_eq_cons hw, ← ofBytes_logicalBytes hw, ← hbits] at hcode
        obtain ⟨lacking, hlacking, hbytes⟩ := Bits.exists_wholeBytes_append_eq hne hcode
        obtain ⟨rest, hgroups, hshort⟩ := Bits.exists_wholeBytes_append (unread r)
        have hlength := length_logicalBytes_le w
        have hmore := continues_logicalBytes w
        rw [← hbytes] at hlength hmore
        have hread := (readChain_judges hgroups hshort).error_of_breaksOff
          (Chain.Layout.breaksOff_of_append hlacking hmore hlength)
        rw [← readWord_of_flag hbits] at hread
        have hcount := congrArg List.length hgroups
        rw [List.length_append, Bits.length_ofBytes] at hcount
        rw [← hbits]
        exact ⟨"sparse value", _, hread, by omega, by omega⟩

end Sparse.Reader

namespace Sparse

/-- A reader of the first bytes has the first bits ahead. -/
theorem unread_take {w : Writer} (h : w.Sound) {k : Nat} (hk : 8 * k ≤ w.bits.length) :
    unread (Reader.mk (w.toBytes.take k) {}) = w.bits.take (8 * k) := by
  have htake : (w.toBytes.take k).toList = w.toBytes.toList.take k := by simp
  change (Bits.ofBytes (w.toBytes.take k).toList).drop 0 = _
  rw [List.drop_zero, htake, Bits.ofBytes_take, Writer.ofBytes_toBytes h, Bits.aligned,
    List.take_append_of_le_length hk]

/-- What is left of the sparse encoding of values is read up to less than eight bits before its end. -/
theorem detects_cut (capacity : Nat) (values : List Value)
    (hgranted : AllocationGranted (runOn (Writer.withCapacity capacity)
      (traced Writer.cursor (values.map writeValue)))) :
    ∃ writes w, runOn (Writer.withCapacity capacity) (traced Writer.cursor (values.map writeValue)) =
        .ok (writes, w) ∧
      ∀ k < w.toBytes.size, ∃ r, DetectsCut Reader.cursor (·.bitPosition ≤ 8 * k) values
          (writes.map Prod.snd) ⟨w.toBytes.take k, {}⟩ r ∧
        r.cursor.bitPosition ≤ 8 * k ∧ 8 * k < r.cursor.bitPosition + 8 := by
  obtain ⟨writes, w, hok, hsound, hwritten, hends⟩ := exists_runOn_traced Cursor.atBit appends_value
    reader_follows.place_writer (Writer.withCapacity_delivers capacity) values hgranted
  refine ⟨writes, w, hok, fun k hk => ?_⟩
  have hbits : w.bits = values.flatMap spelling.value := hwritten
  have hkept : 8 * k < w.bits.length := by
    rw [← Array.length_toList, Writer.toList_toBytes hsound, Bits.length_pack] at hk
    omega
  have hunread := unread_take hsound (Nat.le_of_lt hkept)
  rw [hbits] at hkept hunread
  obtain ⟨n, hdetects, hle, hlt⟩ := detectsCut_of_take Reader.cursor Cursor.atBit
    (·.bitPosition ≤ 8 * k) hkept hunread (fun n => congrArg Cursor.atBit (Nat.zero_add n))
    (fun n => by rw [Cursor.bitPosition_atBit])
  have hstop : (Cursor.atBit (0 + n)).bitPosition = n := by
    rw [Cursor.bitPosition_atBit, Nat.zero_add]
  rw [← hends] at hdetects
  refine ⟨_, hdetects, ?_⟩
  change (Cursor.atBit (0 + n)).bitPosition ≤ 8 * k ∧ 8 * k < (Cursor.atBit (0 + n)).bitPosition + 8
  rw [hstop]
  exact ⟨hle, hlt⟩

end Sparse

/-- Whatever number of bytes is left of an encoding in either format, reading it fails for the want of
more and never in another way, at the first value that does not end within what is left and under the
name of its kind; the values before it come out as they were written. -/
theorem truncation_is_detected (capacity : Nat) (values : List Value) :
    (AllocationGranted (runOn (Standard.Writer.withCapacity capacity)
        (traced Standard.Writer.length (values.map writeValue))) →
      ∃ writes w, runOn (Standard.Writer.withCapacity capacity)
          (traced Standard.Writer.length (values.map writeValue)) = .ok (writes, w) ∧
        ∀ k < w.toBytes.size, ∃ r, DetectsCut Standard.Reader.position (· ≤ k) values
            (writes.map Prod.snd) ⟨w.toBytes.take k, 0⟩ r ∧ r.position = k) ∧
    (AllocationGranted (runOn (Sparse.Writer.withCapacity capacity)
        (traced Sparse.Writer.cursor (values.map writeValue))) →
      ∃ writes w, runOn (Sparse.Writer.withCapacity capacity)
          (traced Sparse.Writer.cursor (values.map writeValue)) = .ok (writes, w) ∧
        ∀ k < w.toBytes.size, ∃ r, DetectsCut Sparse.Reader.cursor (·.bitPosition ≤ 8 * k) values
            (writes.map Prod.snd) ⟨w.toBytes.take k, {}⟩ r ∧
          r.cursor.bitPosition ≤ 8 * k ∧ 8 * k < r.cursor.bitPosition + 8) :=
  ⟨Standard.detects_cut capacity values, Sparse.detects_cut capacity values⟩

/-- Of nine bytes three are left, so that the second value breaks off between its words in the standard
format, and inside of its second word in the sparse one. -/
theorem truncation_is_detected_in_long :
    (∃ writes w, runOn (Standard.Writer.withCapacity 0) (traced Standard.Writer.length
        ([.uint32 0, .int64 (-300), .float32 0x7FA00001].map writeValue)) = .ok (writes, w) ∧
      3 < w.toBytes.size ∧ ∃ r, DetectsCut Standard.Reader.position (· ≤ 3)
        [.uint32 0, .int64 (-300), .float32 0x7FA00001] (writes.map Prod.snd)
        ⟨w.toBytes.take 3, 0⟩ r ∧ r.position = 3) ∧
    ∃ writes w, runOn (Sparse.Writer.withCapacity 0) (traced Sparse.Writer.cursor
        ([.uint32 0, .int64 (-300), .float32 0x7FA00001].map writeValue)) = .ok (writes, w) ∧
      3 < w.toBytes.size ∧ ∃ r, DetectsCut Sparse.Reader.cursor (·.bitPosition ≤ 8 * 3)
        [.uint32 0, .int64 (-300), .float32 0x7FA00001] (writes.map Prod.snd)
        ⟨w.toBytes.take 3, {}⟩ r ∧
      r.cursor.bitPosition ≤ 8 * 3 ∧ 8 * 3 < r.cursor.bitPosition + 8 := by
  constructor
  · obtain ⟨writes, w, hok, hcut⟩ := (truncation_is_detected 0
      [.uint32 0, .int64 (-300), .float32 0x7FA00001]).1 (by decide +kernel)
    have hsize : (runOn (Standard.Writer.withCapacity 0) (traced Standard.Writer.length
        ([.uint32 0, .int64 (-300), .float32 0x7FA00001].map writeValue))).toOption.map
          (·.2.toBytes.size) = some 9 := by
      decide +kernel
    rw [hok] at hsize
    have hkept : 3 < w.toBytes.size := Nat.lt_of_lt_of_eq (by decide) (Option.some.inj hsize).symm
    exact ⟨writes, w, hok, hkept, hcut 3 hkept⟩
  · obtain ⟨writes, w, hok, hcut⟩ := (truncation_is_detected 0
      [.uint32 0, .int64 (-300), .float32 0x7FA00001]).2 (by decide +kernel)
    have hsize : (runOn (Sparse.Writer.withCapacity 0) (traced Sparse.Writer.cursor
        ([.uint32 0, .int64 (-300), .float32 0x7FA00001].map writeValue))).toOption.map
          (·.2.toBytes.size) = some 9 := by
      decide +kernel
    rw [hok] at hsize
    have hkept : 3 < w.toBytes.size := Nat.lt_of_lt_of_eq (by decide) (Option.some.inj hsize).symm
    exact ⟨writes, w, hok, hkept, hcut 3 hkept⟩

end WordStream
