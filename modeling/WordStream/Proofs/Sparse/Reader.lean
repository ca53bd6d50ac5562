import WordStream.Proofs.Sparse.Code
import WordStream.Proofs.Sparse.Cursor
import WordStream.Sparse.Reader

/-!
# The sparse reader as a string of bits

A reader is seen as the string of the bits from its cursor on, so that moving the cursor drops bits.
The flag is the first of them and the next logical byte the first eight, wherever the cursor lies
inside a byte; from this it follows that the reader takes codes off the string.
-/

namespace WordStream.Sparse

namespace Reader

instance : SymbolSource Reader Bool where
  unread r := (Bits.ofBytes r.bytes.toList).drop r.cursor.bitPosition
  skip n r := { r with cursor := .atBit (r.cursor.bitPosition + n) }
  skip_zero r := by simp
  skip_skip m n r := by simp [Nat.add_assoc]
  unread_skip n r := by simp [List.drop_drop]

theorem unread_eq {r : Reader} {byte : UInt8} (h : r.bytes[r.cursor.byte]? = some byte) :
    unread r = (Bits.ofByte byte).drop r.cursor.bit.val ++
      Bits.ofBytes (r.bytes.toList.drop (r.cursor.byte + 1)) := by
  have hbit := r.cursor.bit.isLt
  refine Bits.drop_ofBytes ?_ (by omega)
  rw [Array.getElem?_toList]
  exact h

theorem unread_of_none {r : Reader} (h : r.bytes[r.cursor.byte]? = none) : unread r = [] := by
  have hsize := Array.getElem?_eq_none_iff.mp h
  refine List.drop_of_length_le ?_
  rw [Bits.length_ofBytes, Array.length_toList, Cursor.bitPosition]
  omega

/-! ## Looking ahead -/

/-- The flag is the first bit ahead. -/
theorem flag?_eq (r : Reader) : r.flag? = (unread r)[0]? := by
  have hbit := r.cursor.bit.isLt
  unfold flag?
  cases hbyte : r.bytes[r.cursor.byte]? with
  | none =>
      rw [unread_of_none hbyte]
      rfl
  | some byte =>
      have hlength : 0 < ((Bits.ofByte byte).drop r.cursor.bit.val).length := by
        rw [List.length_drop, Bits.length_ofByte]
        omega
      rw [unread_eq hbyte, Option.map_some, List.getElem?_append_left hlength, List.getElem?_drop,
        Nat.add_zero, Bits.getElem?_ofByte byte hbit]

/-- The eight bits from offset `b` of a byte on reach into the next byte by `b` bits. -/
theorem ofByte_straddling (high low : UInt8) {b : Nat} (hpos : b ≠ 0) (hb : b < 8) :
    Bits.ofByte ((high <<< UInt8.ofNat b) ||| (low >>> UInt8.ofNat (8 - b))) =
      (Bits.ofByte high).drop b ++ (Bits.ofByte low).take b := by
  have hback : ((Bits.ofByte low).take b).length = b := by
    rw [List.length_take, Bits.length_ofByte]
    omega
  have hfront : ((Bits.ofByte high).drop b).length = 8 - b := by
    rw [List.length_drop, Bits.length_ofByte]
  apply Bits.ofByte_or
  · rw [hback]
    exact Bits.ofByte_shiftLeft high hb
  · rw [hfront, Bits.ofByte_shiftRight low (by omega), show 8 - (8 - b) = b by omega]

/-- The next logical byte is the first eight bits ahead. -/
theorem take_of_logicalByte? {r : Reader} {byte : UInt8} (h : r.logicalByte? = some byte) :
    (unread r).take 8 = Bits.ofByte byte := by
  have hbit := r.cursor.bit.isLt
  obtain ⟨high, hhigh, h⟩ := Option.bind_eq_some_iff.mp h
  by_cases hzero : r.cursor.bit.val = 0
  · rw [if_pos hzero] at h
    have hbyte : high = byte := Option.some.inj h
    rw [unread_eq hhigh, hzero, List.drop_zero, List.take_left' (Bits.length_ofByte high), hbyte]
  · rw [if_neg hzero] at h
    obtain ⟨low, hlow, h⟩ := Option.bind_eq_some_iff.mp h
    have hbyte := ofByte_straddling high low hzero hbit
    rw [Option.some.inj h] at hbyte
    have hnext : r.bytes.toList[r.cursor.byte + 1]? = some low := by
      rw [Array.getElem?_toList]
      exact hlow
    have htail := Bits.drop_ofBytes hnext (Nat.zero_le 8)
    rw [Nat.add_zero, List.drop_zero, ← Bits.ofBytes_drop] at htail
    have hreach : 8 - (8 - r.cursor.bit.val) = r.cursor.bit.val := by omega
    rw [unread_eq hhigh, htail, hbyte, List.take_append, List.length_drop, Bits.length_ofByte,
      hreach, List.take_of_length_le (by simp), List.take_append_of_le_length (by simp)]

/-- There is no next logical byte only where less than eight bits lie ahead. -/
theorem length_of_logicalByte? {r : Reader} (h : r.logicalByte? = none) :
    (unread r).length < 8 := by
  have hbit := r.cursor.bit.isLt
  cases hhigh : r.bytes[r.cursor.byte]? with
  | none =>
      rw [unread_of_none hhigh]
      decide
  | some high =>
      by_cases hzero : r.cursor.bit.val = 0
      · simp [logicalByte?, hhigh, hzero] at h
      · -- Inside a byte, its own bits do not make up eight, and no byte follows it.
        have hlow : r.bytes[r.cursor.byte + 1]? = none := by
          cases hlow : r.bytes[r.cursor.byte + 1]? with
          | none => rfl
          | some low => simp [logicalByte?, hhigh, hzero, hlow] at h
        have hsize := Array.getElem?_eq_none_iff.mp hlow
        have hlast : r.bytes.toList.drop (r.cursor.byte + 1) = [] :=
          List.drop_of_length_le (by rwa [Array.length_toList])
        rw [unread_eq hhigh, hlast, Bits.ofBytes_nil, List.append_nil, List.length_drop,
          Bits.length_ofByte]
        omega

theorem logicalByte?_of_unread {r : Reader} {byte : UInt8} {rest : List Bool}
    (h : unread r = Bits.ofByte byte ++ rest) : r.logicalByte? = some byte := by
  cases hbyte : r.logicalByte? with
  | none =>
      have hlength := length_of_logicalByte? hbyte
      rw [h, List.length_append, Bits.length_ofByte] at hlength
      omega
  | some found =>
      have htake := take_of_logicalByte? hbyte
      rw [h, List.take_left' (Bits.length_ofByte byte)] at htake
      rw [Bits.ofByte_injective htake]

/-! ## Reading a code -/

theorem skip_one (r : Reader) : { r with cursor := r.cursor.advanceBit } = skip 1 r := by
  rw [Cursor.eq_atBit (Cursor.bitPosition_advanceBit r.cursor)]
  rfl

theorem skip_eight (r : Reader) : { r with cursor := r.cursor.advanceByte } = skip 8 r := by
  rw [Cursor.eq_atBit (Cursor.bitPosition_advanceByte r.cursor)]
  rfl

theorem takes_readZero : Takes readZero [false] true := by
  intro r rest hr
  have hflag : r.flag? = some false := by
    rw [flag?_eq, hr]
    rfl
  simp only [readZero, hflag, skip_one, List.length_singleton]

theorem readZero_of_true {r : Reader} {rest : List Bool} (hr : unread r = true :: rest) :
    readZero r = .ok false r := by
  have hflag : r.flag? = some true := by
    rw [flag?_eq, hr]
    rfl
  simp only [readZero, hflag]

theorem takes_nextLogicalByte (byte : UInt8) :
    Takes nextLogicalByte (Bits.ofByte byte) byte := by
  intro r rest hr
  simp only [nextLogicalByte, logicalByte?_of_unread hr, skip_eight, Bits.length_ofByte]

theorem takes_readChain (w : UInt32) : Takes readChain (Bits.ofBytes (logicalBytes w)) w := by
  have hlt := w.toNat_lt
  rw [readChain, Sparse.readChain_eq]
  by_cases hrest : w.toNat / 64 = 0
  · have hhead : (UInt8.ofNat (128 + w.toNat % 64)).toNat = 128 + w.toNat % 64 := by
      rw [UInt8.toNat_ofNat']
      omega
    have hlow : (128 + w.toNat % 64) % 64 = w.toNat := by omega
    rw [logicalBytes_eq, if_pos hrest, Bits.ofBytes_cons]
    refine Takes.bind (takes_nextLogicalByte _) ?_
    rw [hhead, if_neg (by omega), hlow, UInt32.ofNat_toNat]
    exact Takes.pure w
  · have hhead : (UInt8.ofNat (128 + 64 + w.toNat % 64)).toNat = 128 + 64 + w.toNat % 64 := by
      rw [UInt8.toNat_ofNat']
      omega
    have hlow : (128 + 64 + w.toNat % 64) % 64 = w.toNat % 64 := by omega
    have hsplit : w.toNat % 64 + w.toNat / 64 * 64 = w.toNat := by omega
    have hlength : (Chain.groups (w.toNat / 64)).length ≤ Limits.maxSparseBytes - 1 :=
      Chain.length_groups_le 3 (by omega)
    have hread := Chain.takes_read_groups takes_nextLogicalByte "sparse value" 64 (w.toNat % 64)
      hlength (by rwa [hsplit])
    rw [hsplit, UInt32.ofNat_toNat] at hread
    rw [logicalBytes_eq, if_neg hrest, Bits.ofBytes_cons]
    refine Takes.bind (takes_nextLogicalByte _) ?_
    rw [hhead, if_pos (by omega), hlow]
    exact hread

theorem readZero_of_unread_nil {r : Reader} (hr : unread r = []) :
    readZero r = .error ⟨.unexpectedEnd, "zero flag"⟩ r := by
  have hflag : r.flag? = none := by
    rw [flag?_eq, hr]
    rfl
  simp only [readZero, hflag]

theorem readWord_of_unread_nil {r : Reader} (hr : unread r = []) :
    (readWord : ReadM Reader UInt32) r = .error ⟨.unexpectedEnd, "zero flag"⟩ r :=
  bind_of_error (readZero_of_unread_nil hr)

/-- Where the flag is set, the read of a word is that of its chain. -/
theorem readWord_of_flag {r : Reader} {rest : List Bool} (hr : unread r = true :: rest) :
    (readWord : ReadM Reader UInt32) r = readChain r :=
  bind_of_ok (readZero_of_true hr)

/-- A word is taken with its code. -/
theorem takes_code (w : UInt32) : Takes (readWord : ReadM Reader UInt32) (code w.toNat) w := by
  intro r rest hr
  by_cases hw : w = 0
  · subst hw
    exact bind_of_ok (takes_readZero r rest hr)
  · -- The flag of another word belongs to its first logical byte, and is left for it.
    have hflag : unread r = true :: (code w.toNat).tail ++ rest := by
      rw [hr, ← code_eq_cons hw]
    rw [readWord_of_flag hflag]
    rw [← ofBytes_logicalBytes hw] at hr ⊢
    exact takes_readChain w r rest hr

instance : ReadsSpelling Reader spelling where
  takes_readWord := takes_code
  takes_readBool b := by
    cases b
    · exact Takes.map (· != 0) (takes_code 0)
    · exact Takes.map (· != 0) (takes_code 1)
  takes_readByte x := by
    have h := Takes.map UInt32.toUInt8 (takes_code x.toUInt32)
    rwa [UInt8.toUInt8_toUInt32] at h
  readWord_of_unread_nil _ hr := ⟨"zero flag", readWord_of_unread_nil hr⟩

end Reader

end WordStream.Sparse
