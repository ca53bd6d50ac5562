import WordStream.Proofs.AnySchema
import WordStream.Proofs.Sparse.Grammar
import WordStream.Proofs.Standard.Grammar
import WordStream.Proofs.Stream.Respelling

/-!
# Decoding and encoding again

The chain that a writer makes is the shortest one of its number, and any other chain of the number is
longer.  So the values that are read from any bytes are written in no more room than they were read
from, and where they need as much, the bytes read are the ones that the writer makes.
-/

namespace WordStream

/-! ## The shortest chain -/

namespace Chain

/-- A group that announces another one goes before a chain as its low bits go before the number. -/
theorem noLonger_groups_cons {m : Nat} {group : UInt8} {rest : List UInt8} (hne : rest ≠ [])
    (hmore : group.toNat.testBit 7 = true) (h : NoLonger (groups m) rest) :
    NoLonger (groups (group.toNat % 128 + 128 * m)) (group :: rest) := by
  have hlt := group.toNat_lt
  rw [testBit_seven] at hmore
  have hbyte := of_decide_eq_true hmore
  by_cases hzero : m = 0
  · -- The chain is overlong: the groups behind this one are for nothing.
    have hlength := List.length_pos_iff.mpr hne
    rw [hzero, Nat.mul_zero, Nat.add_zero, groups_of_lt (Nat.mod_lt _ (by decide))]
    refine .inr ?_
    rw [List.length_singleton, List.length_cons]
    omega
  · have hhigh : (group.toNat % 128 + 128 * m) / 128 = m := by omega
    have hlow : 128 + (group.toNat % 128 + 128 * m) % 128 = group.toNat := by omega
    rw [groups_of_le (by omega), hhigh, hlow, UInt8.ofNat_toNat]
    exact NoLonger.append (.refl [group]) h

/-- Groups that end a chain spell a number, and are its shortest chain or a longer one. -/
theorem noLonger_groups {last shift bound n : Nat} {ahead : List UInt8}
    (h : (Layout.uniform last shift bound).EndsAt ahead n) :
    ∃ m, (Layout.uniform last shift bound).number ahead (n + 1) = m * 2 ^ shift ∧
      NoLonger (groups m) (ahead.take (n + 1)) := by
  -- Induction on the place of the last group; what follows the first one counts 128-fold.
  induction n generalizing ahead last shift with
  | zero =>
      cases ahead with
      | nil => exact absurd h Layout.not_endsAt_nil
      | cons group ahead =>
          have hends : group.toNat.testBit 7 = false := h.announces_first
          rw [testBit_seven] at hends
          have hbyte : group.toNat < 128 := Nat.lt_of_not_le (of_decide_eq_false hends)
          refine ⟨group.toNat, ?_, .inl ?_⟩
          · rw [Layout.number_cons, Layout.number_zero, Nat.add_zero]
            change group.toNat % 128 * 2 ^ shift = _
            rw [Nat.mod_eq_of_lt hbyte]
          · rw [groups_of_lt hbyte, UInt8.ofNat_toNat]
            rfl
  | succ n ih =>
      cases ahead with
      | nil => exact absurd h Layout.not_endsAt_nil
      | cons group ahead =>
          have hlast : n + 1 ≤ last := h.1
          obtain ⟨last, rfl⟩ : ∃ k, last = k + 1 := ⟨last - 1, by omega⟩
          obtain ⟨hmore, hrest⟩ := (Layout.endsAt_cons (Nat.succ_pos last)).mp h
          rw [Layout.tail_uniform] at hrest
          obtain ⟨m, hm, hshort⟩ := ih hrest
          refine ⟨group.toNat % 128 + 128 * m, ?_, ?_⟩
          · rw [Layout.number_cons, Layout.tail_uniform, hm]
            change group.toNat % 128 * 2 ^ shift + _ = _
            rw [Nat.pow_add, Nat.mul_comm (2 ^ shift), ← Nat.mul_assoc, Nat.mul_comm m,
              ← Nat.add_mul]
          · exact noLonger_groups_cons hrest.take_ne_nil hmore hshort

end Chain

/-! ## The words of the two formats -/

theorem Standard.Reader.respells_readWord :
    Respells (readWord : ReadM Reader UInt32) spelling.word := by
  intro r w r' hrun
  obtain ⟨n, hends, hw, rfl⟩ := ((readVarint_judges "uint32" r).ok_iff w r').mp hrun
  obtain ⟨m, hm, hshort⟩ := Chain.noLonger_groups hends
  refine ⟨(unread r).take (n + 1), (unread r).drop (n + 1), ?_, ?_, ?_⟩
  · rw [List.take_append_drop]
  · rw [hends.length_take, Nat.one_mul]
  · have hnumber : w.toNat = m := by
      rw [hw, Nat.zero_add, Varint.layout, hm, Nat.pow_zero, Nat.mul_one]
    change NoLonger (Chain.groups w.toNat) _
    rwa [hnumber]

namespace Sparse

/-- The code of a word is that of its logical bytes, or shorter. -/
theorem noLonger_code (w : UInt32) : NoLonger (code w.toNat) (Bits.ofBytes (logicalBytes w)) := by
  by_cases hw : w = 0
  · subst hw
    exact .inr (by decide)
  · exact .inl (ofBytes_logicalBytes hw).symm

theorem noLonger_ofBytes {xs ys : List UInt8} (h : NoLonger xs ys) :
    NoLonger (Bits.ofBytes xs) (Bits.ofBytes ys) := by
  rcases h with rfl | hless
  · exact .refl _
  · refine .inr ?_
    rw [Bits.length_ofBytes, Bits.length_ofBytes]
    omega

/-- Groups that end a chain and begin with a flag are the logical bytes of their number, or more. -/
theorem noLonger_logicalBytes {w : UInt32} {head : UInt8} {ahead : List UInt8} {n : Nat}
    (hflag : head.toNat.testBit 7 = true) (h : layout.EndsAt (head :: ahead) n)
    (hw : w.toNat = layout.number (head :: ahead) (n + 1)) :
    NoLonger (logicalBytes w) ((head :: ahead).take (n + 1)) := by
  have hlt := head.toNat_lt
  rw [Chain.testBit_seven] at hflag
  have hbyte := of_decide_eq_true hflag
  rw [Chain.Layout.number_cons] at hw
  change w.toNat = head.toNat % 64 + _ at hw
  cases n with
  | zero =>
      have hends : head.toNat.testBit 6 = false := h.announces_first
      rw [Nat.testBit_eq_decide_div_mod_eq] at hends
      have hbit := of_decide_eq_false hends
      rw [Chain.Layout.number_zero, Nat.add_zero] at hw
      have hrest : w.toNat / 64 = 0 := by omega
      have hhead : 128 + w.toNat % 64 = head.toNat := by omega
      rw [logicalBytes_eq, if_pos hrest, hhead, UInt8.ofNat_toNat]
      exact .refl _
  | succ n =>
      obtain ⟨hmore, hrest⟩ := (Chain.Layout.endsAt_cons (by decide)).mp h
      have hannounced : head.toNat.testBit 6 = true := hmore
      rw [Nat.testBit_eq_decide_div_mod_eq] at hannounced
      have hbit := of_decide_eq_true hannounced
      rw [tail_layout] at hrest hw
      obtain ⟨m, hm, hshort⟩ := Chain.noLonger_groups hrest
      rw [hm] at hw
      rw [List.take_succ_cons]
      by_cases hzero : m = 0
      · have hlength := List.length_pos_iff.mpr hrest.take_ne_nil
        rw [logicalBytes_eq, if_pos (by omega)]
        refine .inr ?_
        rw [List.length_singleton, List.length_cons]
        omega
      · have hhigh : w.toNat / 64 = m := by omega
        have hhead : 128 + 64 + w.toNat % 64 = head.toNat := by omega
        rw [logicalBytes_eq, hhigh, hhead, UInt8.ofNat_toNat, if_neg hzero]
        exact NoLonger.append (.refl [head]) hshort

theorem Reader.respells_readWord :
    Respells (readWord : ReadM Reader UInt32) spelling.word := by
  intro r w r' hrun
  cases hr : unread r with
  | nil =>
      rw [readWord_of_unread_nil hr] at hrun
      cases hrun
  | cons flag ahead =>
      cases flag with
      | false =>
          rw [takes_code 0 r ahead hr] at hrun
          cases hrun
          exact ⟨[false], ahead, rfl, rfl, .refl _⟩
      | true =>
          rw [readWord_of_flag hr] at hrun
          obtain ⟨rest, hgroups, hshort⟩ := Bits.exists_wholeBytes_append (unread r)
          generalize Bits.wholeBytes (unread r) = groups at hgroups
          obtain ⟨n, hends, hw, rfl⟩ := ((readChain_judges hgroups hshort).ok_iff w r').mp hrun
          cases groups with
          | nil => exact absurd hends Chain.Layout.not_endsAt_nil
          | cons head groups =>
              rw [hr] at hgroups
              have hflag : head.toNat.testBit 7 = true := (List.cons.inj hgroups).1.symm
              rw [Nat.zero_add] at hw
              have htake := hends.length_take
              refine ⟨Bits.ofBytes ((head :: groups).take (n + 1)),
                Bits.ofBytes ((head :: groups).drop (n + 1)) ++ rest, ?_, ?_, ?_⟩
              · rw [hgroups, ← List.append_assoc, ← Bits.ofBytes_append,
                  List.take_append_drop]
              · rw [Bits.length_ofBytes, htake]
              · exact (noLonger_code w).trans
                  (noLonger_ofBytes (noLonger_logicalBytes hflag hends hw))

end Sparse

/-! ## Values written again -/

/-- What a fresh writer makes of the values that a read has given is what they were read from, or
shorter. -/
theorem rewritten_noLonger {ρ σ β : Type} [SymbolSource ρ β] [WordReader ρ]
    [SymbolSink σ β] [WordWriter σ] {spelling : Spelling β} [WritesSpelling σ spelling]
    (hword : Respells (readWord : ReadM ρ UInt32) spelling.word) {start : Except Fault σ}
    (hstart : Delivers start fun s => Valid s ∧ written s = []) {schema : List Kind} {r r' : ρ}
    {values : List Value} (hread : readValues schema r = .ok values r')
    (hgranted : AllocationGranted (runOn start (writeValues values))) :
    ∃ s taken rest, runOn start (writeValues values) = .ok ((), s) ∧ Valid s ∧
      unread r = taken ++ rest ∧ r' = skip taken.length r ∧ NoLonger (written s) taken := by
  obtain ⟨s, hrun, hs, hwritten⟩ := runOn_writeValues hstart values hgranted
  obtain ⟨taken, rest, hr, hr', hshort⟩ := hword.readValues schema r values r' hread
  exact ⟨s, taken, rest, hrun, hs, hr, hr', by rwa [hwritten]⟩

/-- Values that were read from any bytes under any schema take no more bytes, or bits in the sparse
format, when they are written again; and where they take as many, these are the ones they were read
from. -/
theorem reencoding_never_lengthens (data : Array UInt8) (schema : List Kind) (capacity : Nat) :
    (∀ values r, readValues schema (Standard.Reader.mk data 0) = .ok values r →
      AllocationGranted (runOn (Standard.Writer.withCapacity capacity) (writeValues values)) →
      ∃ w, runOn (Standard.Writer.withCapacity capacity) (writeValues values) = .ok ((), w) ∧
        w.length ≤ r.position ∧
        (w.length = r.position → w.toBytes.toList = data.toList.take r.position)) ∧
    ∀ values r, readValues schema (Sparse.Reader.mk data {}) = .ok values r →
      AllocationGranted (runOn (Sparse.Writer.withCapacity capacity) (writeValues values)) →
      ∃ w, runOn (Sparse.Writer.withCapacity capacity) (writeValues values) = .ok ((), w) ∧
        w.cursor.bitPosition ≤ r.cursor.bitPosition ∧
        (w.cursor.bitPosition = r.cursor.bitPosition →
          (Bits.ofBytes w.toBytes.toList).take w.cursor.bitPosition =
            (Bits.ofBytes data.toList).take r.cursor.bitPosition) := by
  constructor
  · intro values r hread hgranted
    obtain ⟨w, taken, rest, hrun, hw, hdata, rfl, hshort⟩ :=
      rewritten_noLonger Standard.Reader.respells_readWord
        (Standard.Writer.withCapacity_delivers capacity) hread hgranted
    have hlength : w.length = (written w).length := Standard.Writer.length_eq_written hw
    have hplace : (skip taken.length (Standard.Reader.mk data 0)).position = taken.length :=
      Nat.zero_add _
    refine ⟨w, hrun, ?_, fun heq => ?_⟩
    · rw [hlength, hplace]
      exact hshort.length_le
    · rw [hlength, hplace] at heq
      have hbytes : data.toList = taken ++ rest := hdata
      rw [hplace, hbytes, List.take_left]
      exact hshort.eq_of_length heq
  · intro values r hread hgranted
    obtain ⟨w, taken, rest, hrun, hw, hdata, rfl, hshort⟩ :=
      rewritten_noLonger Sparse.Reader.respells_readWord
        (Sparse.Writer.withCapacity_delivers capacity) hread hgranted
    have hlength : w.bits.length = w.cursor.bitPosition := Sparse.Writer.length_bits hw
    have hplace : (skip taken.length (Sparse.Reader.mk data {})).cursor.bitPosition =
        taken.length := by
      change (Sparse.Cursor.atBit (0 + taken.length)).bitPosition = _
      rw [Sparse.Cursor.bitPosition_atBit, Nat.zero_add]
    refine ⟨w, hrun, ?_, fun heq => ?_⟩
    · rw [← hlength, hplace]
      exact hshort.length_le
    · rw [← hlength, hplace] at heq
      have hbits : Bits.ofBytes data.toList = taken ++ rest := hdata
      rw [Sparse.Writer.ofBytes_toBytes hw, Bits.aligned, ← hlength, List.take_left, hplace, hbits,
        List.take_left]
      exact hshort.eq_of_length heq

/-- The first two bytes are a chain of the standard format that is one byte too long, but a word and a
zero of the sparse format just as they are written; the next two are the shortest chain of their number
in the standard format, but in the sparse format a chain of no bits that spells a zero.  What is too long
is written anew in less, and what is not is written as it was. -/
theorem reencoding_never_lengthens_chains :
    (readValues [.int32] (Standard.Reader.mk #[0x83, 0x00] 0) =
        .ok [.int32 (-2)] ⟨#[0x83, 0x00], 2⟩ ∧
      ∃ w, runOn (Standard.Writer.withCapacity 0) (writeValues [.int32 (-2)]) = .ok ((), w) ∧
        w.length ≤ 2 ∧ w.length = 1) ∧
    (readValues [.int32, .uint32] (Sparse.Reader.mk #[0x83, 0x00] {}) =
        .ok [.int32 (-2), .uint32 0] ⟨#[0x83, 0x00], ⟨1, 1⟩⟩ ∧
      ∃ w, runOn (Sparse.Writer.withCapacity 0) (writeValues [.int32 (-2), .uint32 0]) =
          .ok ((), w) ∧
        w.cursor.bitPosition = 9 ∧
        (Bits.ofBytes w.toBytes.toList).take 9 =
          [true, false, false, false, false, false, true, true, false]) ∧
    (readValues [.uint32] (Standard.Reader.mk #[0x80, 0x01] 0) =
        .ok [.uint32 128] ⟨#[0x80, 0x01], 2⟩ ∧
      ∃ w, runOn (Standard.Writer.withCapacity 0) (writeValues [.uint32 128]) = .ok ((), w) ∧
        w.length = 2 ∧ w.toBytes.toList = [0x80, 0x01]) ∧
    (readValues [.uint32] (Sparse.Reader.mk #[0x80, 0x01] {}) =
        .ok [.uint32 0] ⟨#[0x80, 0x01], ⟨1, 0⟩⟩ ∧
      ∃ w, runOn (Sparse.Writer.withCapacity 0) (writeValues [.uint32 0]) = .ok ((), w) ∧
        w.cursor.bitPosition ≤ 8 ∧ w.cursor.bitPosition = 1) := by
  have hlong : readValues [.int32] (Standard.Reader.mk #[0x83, 0x00] 0) =
      .ok [.int32 (-2)] ⟨#[0x83, 0x00], 2⟩ := rfl
  have hshortest : readValues [.int32, .uint32] (Sparse.Reader.mk #[0x83, 0x00] {}) =
      .ok [.int32 (-2), .uint32 0] ⟨#[0x83, 0x00], ⟨1, 1⟩⟩ := rfl
  have hshortest' : readValues [.uint32] (Standard.Reader.mk #[0x80, 0x01] 0) =
      .ok [.uint32 128] ⟨#[0x80, 0x01], 2⟩ := rfl
  have hlong' : readValues [.uint32] (Sparse.Reader.mk #[0x80, 0x01] {}) =
      .ok [.uint32 0] ⟨#[0x80, 0x01], ⟨1, 0⟩⟩ := rfl
  refine ⟨⟨hlong, ?_⟩, ⟨hshortest, ?_⟩, ⟨hshortest', ?_⟩, hlong', ?_⟩
  · obtain ⟨w, hrun, hle, -⟩ :=
      (reencoding_never_lengthens #[0x83, 0x00] [.int32] 0).1 _ _ hlong (by decide +kernel)
    exact ⟨w, hrun, hle, of_toOption_map (·.2.length) hrun (by decide +kernel)⟩
  · obtain ⟨w, hrun, -, hsame⟩ :=
      (reencoding_never_lengthens #[0x83, 0x00] [.int32, .uint32] 0).2 _ _ hshortest
        (by decide +kernel)
    have hplace : w.cursor.bitPosition = 9 :=
      of_toOption_map (·.2.cursor.bitPosition) hrun (by decide +kernel)
    have hbits := hsame hplace
    rw [hplace] at hbits
    exact ⟨w, hrun, hplace, hbits⟩
  · obtain ⟨w, hrun, -, hsame⟩ :=
      (reencoding_never_lengthens #[0x80, 0x01] [.uint32] 0).1 _ _ hshortest' (by decide +kernel)
    have hlength : w.length = 2 := of_toOption_map (·.2.length) hrun (by decide +kernel)
    exact ⟨w, hrun, hlength, hsame hlength⟩
  · obtain ⟨w, hrun, hle, -⟩ :=
      (reencoding_never_lengthens #[0x80, 0x01] [.uint32] 0).2 _ _ hlong' (by decide +kernel)
    exact ⟨w, hrun, hle, of_toOption_map (·.2.cursor.bitPosition) hrun (by decide +kernel)⟩

end WordStream
