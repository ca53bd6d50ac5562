import WordStream.Proofs.Chain.Judgement
import WordStream.Proofs.Sparse.Reader

/-!
# The grammar of the sparse format

A word other than zero is a chain of at most five groups of eight bits, which begin at any bit; the
first one holds the flag, so that it announces another group by its second bit and counts only six.
Over any bytes, from any bit, the reader gives the number of the chain there, or tells in which way
there is none, and stops behind the last group that it took.
-/

namespace WordStream.Sparse

/-- The layout of a chain: six bits in the first group, seven in the others, the low ones first, and
five of them at most in the fifth group. -/
def layout : Chain.Layout where
  lastPlace := 4
  lastBound := 32
  announces
    | 0, group => group.toNat.testBit 6
    | _ + 1, group => group.toNat.testBit 7
  worth
    | 0, group => group.toNat % 64
    | i + 1, group => group.toNat % 128 * 2 ^ (6 + 7 * i)

theorem tail_layout : layout.tail = .uniform 3 6 32 := rfl

theorem length_logicalBytes_le (w : UInt32) : (logicalBytes w).length ≤ Limits.maxSparseBytes := by
  have hlt := w.toNat_lt
  by_cases hrest : w.toNat / 64 = 0
  · rw [logicalBytes_eq, if_pos hrest]
    exact Nat.succ_le_succ (Nat.zero_le 4)
  · rw [logicalBytes_eq, if_neg hrest, List.length_cons]
    exact Nat.succ_le_succ (Chain.length_groups_le 3 (by omega))

/-- Every logical byte of a word but the last announces another one. -/
theorem continues_logicalBytes (w : UInt32) :
    layout.Continues (logicalBytes w) ((logicalBytes w).length - 1) := by
  by_cases hrest : w.toNat / 64 = 0
  · rw [logicalBytes_eq, if_pos hrest]
    exact Chain.Layout.continues_zero
  · have hhead : (UInt8.ofNat (128 + 64 + w.toNat % 64)).toNat = 128 + 64 + w.toNat % 64 := by
      rw [UInt8.toNat_ofNat']
      omega
    rw [logicalBytes_eq, if_neg hrest]
    refine Chain.Layout.continues_cons_of_ne_nil (Chain.groups_ne_nil _) ?_
      (Chain.continues_groups 3 6 32 _)
    change (UInt8.ofNat (128 + 64 + w.toNat % 64)).toNat.testBit 6 = true
    rw [hhead, Nat.testBit_eq_decide_div_mod_eq]
    exact decide_eq_true (by omega)

namespace Reader

theorem nextLogicalByte_of_short {r : Reader} (hr : (unread r).length < 8) :
    nextLogicalByte r = .error ⟨.unexpectedEnd, "sparse value"⟩ r := by
  cases hbyte : r.logicalByte? with
  | none => simp only [nextLogicalByte, hbyte]
  | some byte =>
      have hlength := congrArg List.length (take_of_logicalByte? hbyte)
      rw [List.length_take, Bits.length_ofByte] at hlength
      omega

theorem nextLogicalByte_takesGroups :
    TakesGroups nextLogicalByte 8 Bits.ofByte "sparse value" where
  length_spell := Bits.length_ofByte
  takes := takes_nextLogicalByte
  ends _ := nextLogicalByte_of_short

/-- Reading a chain judges the groups ahead, with what is left of the bits behind them. -/
theorem readChain_judges {r : Reader} {groups : List UInt8} {rest : List Bool}
    (hr : unread r = Bits.ofBytes groups ++ rest) (hshort : rest.length < 8) :
    Judges layout 8 "sparse value" groups 0 readChain r := by
  cases groups with
  | nil =>
      have hnone := nextLogicalByte_of_short (r := r) (by rwa [hr])
      exact Judges.nil (bind_of_error hnone)
  | cons head groups =>
      rw [Bits.ofBytes_cons, List.append_assoc] at hr
      have hhead := takes_nextLogicalByte head r _ hr
      rw [Bits.length_ofByte] at hhead
      have hbit : head.toNat.testBit 6 = decide (head.toNat / 64 % 2 = 1) :=
        Nat.testBit_eq_decide_div_mod_eq
      have hrun : readChain r =
          (if head.toNat / 64 % 2 = 1 then
            Chain.read nextLogicalByte "sparse value" 4 64 (head.toNat % 64)
          else pure (UInt32.ofNat (head.toNat % 64)) : ReadM Reader UInt32) (skip 8 r) := by
        rw [readChain, Sparse.readChain_eq]
        exact bind_of_ok hhead
      have hzero : 0 + head.toNat % 64 = head.toNat % 64 := Nat.zero_add _
      by_cases hmore : head.toNat / 64 % 2 = 1
      · rw [if_pos hmore] at hrun
        refine Judges.cons_of_announces (by decide) (hbit.trans (decide_eq_true hmore)) hrun ?_
        rw [tail_layout]
        change Judges _ _ _ _ (0 + head.toNat % 64) _ _
        rw [hzero]
        refine Chain.judges_read nextLogicalByte_takesGroups ?_ hshort
          (Nat.mod_lt _ (by decide)) rfl
        rw [← Bits.length_ofByte head]
        exact unread_skip_of_append hr
      · rw [if_neg hmore] at hrun
        refine Judges.cons_of_ends (by decide) (hbit.trans (decide_eq_false hmore)) hrun ?_
        change _ = 0 + head.toNat % 64
        rw [hzero]
        have hlt : head.toNat % 64 < UInt32.size :=
          Nat.lt_of_lt_of_le (Nat.mod_lt _ (by decide)) (by decide)
        exact UInt32.toNat_ofNat_of_lt' hlt

end Reader

/-- Over any bytes, from any bit, reading gives exactly what the grammar says of the bits ahead: no
word where the bytes have ended, zero for a bit that is not set, and for a bit that is set what the
layout of chains says of the whole groups from this bit on. -/
theorem readWord_by_grammar (bytes : Array UInt8) (cursor : Cursor) :
    let bits := Bits.ofBytes bytes.toList
    let flag := bits[cursor.bitPosition]?
    let groups := Bits.wholeBytes (bits.drop cursor.bitPosition)
    let read := (readWord : ReadM Reader UInt32) ⟨bytes, cursor⟩
    let after (n : Nat) := Reader.mk bytes (.atBit (cursor.bitPosition + n))
    (bytes.size ≤ cursor.byte → read = .error ⟨.unexpectedEnd, "zero flag"⟩ ⟨bytes, cursor⟩) ∧
    (flag = some false → read = .ok 0 (after 1)) ∧
    (flag = some true →
      (∀ w r, read = .ok w r ↔
        ∃ n, layout.EndsAt groups n ∧ w.toNat = layout.number groups (n + 1) ∧
          r = after (8 * (n + 1))) ∧
      ∀ e r, read = .error e r ↔
        (e = ⟨.overflow, "sparse value"⟩ ∧ layout.Overflows groups ∧ r = after 40) ∨
        (e = ⟨.tooLong, "sparse value"⟩ ∧ layout.GoesOn groups ∧ r = after 40) ∨
        (e = ⟨.unexpectedEnd, "sparse value"⟩ ∧ layout.BreaksOff groups ∧
          r = after (8 * groups.length))) := by
  intro bits flag groups read after
  have hahead : ∀ bit, flag = some bit → unread (Reader.mk bytes cursor) =
      bit :: bits.drop (cursor.bitPosition + 1) := by
    intro bit hbit
    obtain ⟨hlt, rfl⟩ := List.getElem?_eq_some_iff.mp hbit
    exact List.drop_eq_getElem_cons hlt
  refine ⟨fun hbyte => ?_, fun hzero => ?_, fun hone => ?_⟩
  · exact Reader.readWord_of_unread_nil (Reader.unread_of_none (Array.getElem?_eq_none hbyte))
  · exact Reader.takes_code 0 _ _ (hahead false hzero)
  · obtain ⟨rest, hgroups, hshort⟩ :=
      Bits.exists_wholeBytes_append (unread (Reader.mk bytes cursor))
    have hjudges := Reader.readChain_judges hgroups hshort
    have hread : read = Reader.readChain ⟨bytes, cursor⟩ :=
      Reader.readWord_of_flag (hahead true hone)
    rw [hread]
    constructor
    · intro w r
      refine (hjudges.ok_iff w r).trans ?_
      simp only [Nat.zero_add]
      exact Iff.rfl
    · intro e r
      exact hjudges.error_iff e r

/-- Two bytes, read past their end, at the bit of a zero, and at the chain of five behind it, which goes
across both bytes. -/
theorem readWord_across_bytes :
    (readWord : ReadM Reader UInt32) ⟨#[0x10, 0xA0], ⟨2, 0⟩⟩ =
        .error ⟨.unexpectedEnd, "zero flag"⟩ ⟨#[0x10, 0xA0], ⟨2, 0⟩⟩ ∧
      (readWord : ReadM Reader UInt32) ⟨#[0x10, 0xA0], ⟨0, 2⟩⟩ =
        .ok 0 ⟨#[0x10, 0xA0], .atBit 3⟩ ∧
      (readWord : ReadM Reader UInt32) ⟨#[0x10, 0xA0], ⟨0, 3⟩⟩ =
        .ok 5 ⟨#[0x10, 0xA0], .atBit 11⟩ := by
  refine ⟨?_, ?_, ?_⟩
  · exact (readWord_by_grammar #[0x10, 0xA0] ⟨2, 0⟩).1 (by decide)
  · exact (readWord_by_grammar #[0x10, 0xA0] ⟨0, 2⟩).2.1 (by decide)
  · have hgroups : Bits.wholeBytes ((Bits.ofBytes #[0x10, 0xA0].toList).drop 3) = [0x85] := by
      decide +kernel
    have hchain : layout.EndsAt [0x85] 0 :=
      ⟨Nat.zero_le _, Chain.Layout.continues_zero, 0x85, rfl, by decide, by decide⟩
    refine (((readWord_by_grammar #[0x10, 0xA0] ⟨0, 3⟩).2.2 (by decide)).1 5 _).mpr ⟨0, ?_, ?_, rfl⟩
    · exact hgroups ▸ hchain
    · exact hgroups ▸ rfl

end WordStream.Sparse
