import WordStream.Proofs.Sparse.Footprint
import WordStream.Proofs.Standard.Patch

/-!
# Short outputs are not refused

A buffer doubles only when it is full, so that no growth passes the largest allocation before the output
takes up half of it.  As long as all bit positions of an output lie below the address bound it is far
shorter than that: whatever is written goes through, in both formats and from any capacity that could be
allocated in the first place.
-/

namespace WordStream

section Writers

variable {σ α γ ι β : Type} [SymbolSink σ β] {limit : Nat}

/-- As long as the output stays below the limit, an action is not refused, and appends the given symbols
to it. -/
def AppendsBelow (limit : Nat) (act : WriteM σ α) (symbols : List β) : Prop :=
  ∀ s, Valid s → (written s).length + symbols.length < limit →
    ∃ a s', act s = .ok a s' ∧ Valid s' ∧ written s' = written s ++ symbols

/-- What an action appends is known; it is enough to know that the action is not refused. -/
theorem Appends.below {act : WriteM σ α} {symbols : List β} (h : Appends act symbols)
    (hgranted : ∀ s, Valid s → (written s).length + symbols.length < limit → ∃ a s', act s = .ok a s') :
    AppendsBelow limit act symbols := by
  intro s hs hlength
  obtain ⟨a, s', hrun⟩ := hgranted s hs hlength
  exact ⟨a, s', hrun, (h s hs).post_of_ok hrun⟩

theorem AppendsBelow.pure (a : α) : AppendsBelow limit (Pure.pure a : WriteM σ α) [] :=
  fun s hs _ => ⟨a, s, rfl, hs, (List.append_nil _).symm⟩

theorem AppendsBelow.bind {act : WriteM σ α} {next : α → WriteM σ γ} {xs ys : List β}
    (h : AppendsBelow limit act xs) (hnext : ∀ a, AppendsBelow limit (next a) ys) :
    AppendsBelow limit (act >>= next) (xs ++ ys) := by
  intro s hs hlength
  rw [List.length_append] at hlength
  obtain ⟨a, t, hrun, ht, hwritten⟩ := h s hs (by omega)
  have hrest : (written t).length + ys.length < limit := by
    rw [hwritten, List.length_append]
    omega
  obtain ⟨c, u, hrun', hu, hwritten'⟩ := hnext a t ht hrest
  exact ⟨c, u, (bind_of_ok hrun).trans hrun', hu, by rw [hwritten', hwritten, List.append_assoc]⟩

theorem AppendsBelow.forM {write : ι → WriteM σ Unit} {spell : ι → List β}
    (h : ∀ i, AppendsBelow limit (write i) (spell i)) (is : List ι) :
    AppendsBelow limit (is.forM write) (is.flatMap spell) := by
  induction is with
  | nil => exact AppendsBelow.pure ()
  | cons i is ih =>
      rw [List.flatMap_cons]
      exact AppendsBelow.bind (h i) fun _ => ih

/-- On a new state, an output that is short enough is written whole. -/
theorem AppendsBelow.exists_runOn {act : WriteM σ α} {symbols : List β} {start : Except Fault σ}
    (h : AppendsBelow limit act symbols) (hstart : ∃ s, start = .ok s ∧ Valid s ∧ written s = [])
    (hlength : symbols.length < limit) :
    ∃ a s, runOn start act = .ok (a, s) ∧ Valid s ∧ written s = symbols := by
  obtain ⟨s, rfl, hs, hnew⟩ := hstart
  obtain ⟨a, s', hrun, hs', hwritten⟩ := h s hs (by rw [hnew, List.length_nil]; omega)
  refine ⟨a, s', ?_, hs', by rw [hwritten, hnew, List.nil_append]⟩
  simp only [runOn, hrun]

/-- Typed writes come down to words. -/
theorem AppendsBelow.writeValue [WordWriter σ] {spelling : Spelling β}
    (h : ∀ w, AppendsBelow limit (writeWord w : WriteM σ Unit) (spelling.word w)) (value : Value) :
    AppendsBelow limit (writeValue value : WriteM σ Unit) (spelling.words value.toWords) :=
  AppendsBelow.forM h value.toWords

end Writers

/-! ## Room in buffers -/

namespace Buffer

/-- The loop stops before it doubles a capacity that is enough. -/
theorem growTo_ok {needed : Nat} (h : 2 * needed ≤ Limits.maxAllocation) (b : Buffer) :
    ∃ b', growTo needed b = .ok () b' := by
  fun_induction growTo needed b with
  | case1 b hlt hgrow ih => exact ih
  | case2 b hlt hgrow => exact absurd (show 2 * b.capacity ≤ Limits.maxAllocation by omega) hgrow
  | case3 b hle => exact ⟨b, rfl⟩

theorem ensure_ok {count : Nat} {b : Buffer} (h : 2 * (b.position + count) ≤ Limits.maxAllocation) :
    ∃ b', ensure count b = .ok () b' := by
  have hbound : b.position + count < Limits.addressBound := by
    simp only [Limits.maxAllocation, Limits.addressBound] at *
    omega
  rw [ensure, if_pos hbound]
  exact growTo_ok h b

theorem advance_ok {b : Buffer} (hroom : b.position < b.capacity)
    (h : 2 * (b.position + 1) ≤ Limits.maxAllocation) : advance b = .ok () b.advanced := by
  change growIfFull b.stepped = .ok () b.advanced
  rw [growIfFull, advanced]
  by_cases hfull : b.stepped.isFull = true
  · have hend : b.capacity ≤ b.position + 1 := of_decide_eq_true hfull
    have hgrow : 2 * b.stepped.capacity ≤ Limits.maxAllocation := by
      rw [stepped_capacity]
      omega
    rw [if_pos hfull, if_pos hfull, grow, if_pos hgrow]
  · rw [if_neg hfull, if_neg hfull]

theorem withCapacity_ok {capacity : Nat} (h : capacity ≤ Limits.maxAllocation) :
    withCapacity capacity = .ok ⟨Array.replicate capacity 0, 0⟩ :=
  if_pos h

end Buffer

/-! ## The standard format -/

namespace Standard.Writer

/-- Below this length the largest capacity that a word can ask for is still an allocation. -/
theorem appendsBelow_writeWord (word : UInt32) :
    AppendsBelow (Limits.addressBound / 8) (writeWord word : WriteM Writer Unit)
      (spelling.word word) := by
  refine (appends_writeWord word).below fun w hw hlength => ?_
  have hposition : w.buffer.position < Limits.addressBound / 8 := by
    have hlast := length_eq_written hw
    unfold length at hlast
    omega
  by_cases hroom : w.buffer.position + Limits.maxStandardBytes ≤ w.buffer.capacity
  · exact ⟨(), _, onBuffer_ok (Varint.write_of_room hw hroom)⟩
  · have hgrow : 2 * w.buffer.capacity ≤ Limits.maxAllocation := by
      simp only [Limits.maxAllocation, Limits.addressBound, Limits.maxStandardBytes] at *
      omega
    exact ⟨(), _, onBuffer_ok (Varint.write_of_full hw (Nat.lt_of_not_le hroom) hgrow)⟩

theorem exists_withCapacity {capacity : Nat} (h : capacity ≤ Limits.maxAllocation) :
    ∃ w, withCapacity capacity = .ok w ∧ Valid w ∧ written w = [] := by
  have hdelivers := withCapacity_delivers capacity
  have hok : withCapacity capacity = .ok ⟨⟨Array.replicate capacity 0, 0⟩⟩ := by
    rw [withCapacity, Buffer.withCapacity_ok h]
    rfl
  rw [hok] at hdelivers
  exact ⟨_, hok, hdelivers⟩

end Standard.Writer

/-! ## The sparse format -/

namespace Sparse.Writer

theorem startByte_ok {w : Writer} (hroom : w.buffer.position < w.buffer.capacity)
    (h : 2 * (w.buffer.position + 1) ≤ Limits.maxAllocation) : startByte w = .ok () w.started := by
  have hadvance : onBuffer Buffer.advance w = .ok () ⟨w.buffer.advanced, w.bit⟩ :=
    onBuffer_ok (Buffer.advance_ok hroom h)
  have hstore : onBuffer (Buffer.storeCurrent 0) ⟨w.buffer.advanced, w.bit⟩ =
      .ok () ⟨w.buffer.advanced.mapCurrent fun _ => 0, w.bit⟩ :=
    modify_ok (Buffer.advanced_position_lt hroom) fun _ => 0
  rw [startByte, bind_of_ok hadvance, bind_of_ok hstore]
  rfl

theorem writeZero_ok {w : Writer} (hroom : w.buffer.position < w.buffer.capacity)
    (h : 2 * (w.buffer.position + 1) ≤ Limits.maxAllocation) : ∃ w', writeZero w = .ok () w' := by
  have hget : (get : WriteM Writer Writer) w = .ok w w := rfl
  rw [writeZero, bind_of_ok hget]
  dsimp only
  by_cases hzero : w.bit.val = 0
  · have hstore : onBuffer (Buffer.storeCurrent 0) w =
        .ok () ⟨w.buffer.mapCurrent fun _ => 0, w.bit⟩ := modify_ok hroom fun _ => 0
    rw [if_pos hzero, bind_of_ok hstore, if_neg (by omega)]
    exact ⟨_, rfl⟩
  · rw [if_neg hzero]
    by_cases hlast : w.bit.val = 7
    · rw [if_pos hlast]
      exact ⟨_, startByte_ok hroom h⟩
    · rw [if_neg hlast]
      exact ⟨_, rfl⟩

theorem writeLogicalByte_ok (byte : UInt8) {w : Writer} (hroom : w.buffer.position < w.buffer.capacity)
    (h : 2 * (w.buffer.position + 1) ≤ Limits.maxAllocation) :
    ∃ w', writeLogicalByte byte w = .ok () w' := by
  have hadvance : ∀ f, Buffer.advance (w.buffer.mapCurrent f) = .ok () (w.buffer.mapCurrent f).advanced :=
    fun f => Buffer.advance_ok (Buffer.mapCurrent_room hroom f) h
  by_cases hbit : w.bit.val = 0
  · rw [writeLogicalByte_of_aligned byte hbit]
    have hstore : Buffer.storeCurrent byte w.buffer = .ok () (w.buffer.mapCurrent fun _ => byte) :=
      Buffer.modifyCurrent_ok hroom
    exact ⟨_, onBuffer_ok ((bind_of_ok hstore).trans (hadvance _))⟩
  · have hget : (get : WriteM Writer Writer) w = .ok w w := rfl
    have hmerge := modify_ok hroom (· ||| byte >>> UInt8.ofNat w.bit.val)
    have hnext : onBuffer Buffer.advance
        ⟨w.buffer.mapCurrent (· ||| byte >>> UInt8.ofNat w.bit.val), w.bit⟩ = .ok () _ :=
      onBuffer_ok (hadvance _)
    rw [writeLogicalByte, bind_of_ok hget]
    dsimp only
    rw [if_neg hbit, Buffer.mergeCurrent, bind_of_ok hmerge, bind_of_ok hnext, if_pos hbit]
    exact ⟨_, modify_ok (Buffer.advanced_position_lt (Buffer.mapCurrent_room hroom _)) _⟩

/-- A bit position below the bound is far from the end of what can be allocated. -/
theorem next_byte_granted {w : Writer} (hw : w.Sound) (h : w.bits.length < Limits.addressBound) :
    2 * (w.buffer.position + 1) ≤ Limits.maxAllocation := by
  rw [length_bits hw, bitPosition_cursor] at h
  simp only [Limits.maxAllocation, Limits.addressBound] at *
  omega

theorem appendsBelow_writeWord (word : UInt32) :
    AppendsBelow Limits.addressBound (writeWord word : WriteM Writer Unit) (spelling.word word) := by
  change AppendsBelow _ (if word = 0 then writeZero else (logicalBytes word).forM writeLogicalByte)
    (code word.toNat)
  by_cases hword : word = 0
  · subst hword
    rw [if_pos rfl]
    exact appends_writeZero.below fun w hw hlength =>
      ⟨(), writeZero_ok hw.room (next_byte_granted hw (Nat.lt_of_add_right_lt hlength))⟩
  · have hbyte : ∀ byte, AppendsBelow Limits.addressBound (writeLogicalByte byte) (Bits.ofByte byte) := by
      intro byte
      have happends : Appends (writeLogicalByte byte) (Bits.ofByte byte) := fun w hw =>
        writeLogicalByte_achieves hw byte
      exact happends.below fun w hw hlength =>
        ⟨(), writeLogicalByte_ok byte hw.room (next_byte_granted hw (Nat.lt_of_add_right_lt hlength))⟩
    rw [if_neg hword, ← ofBytes_logicalBytes hword]
    exact AppendsBelow.forM hbyte (logicalBytes word)

theorem exists_withCapacity {capacity : Nat} (h : capacity ≤ Limits.maxAllocation) :
    ∃ w, withCapacity capacity = .ok w ∧ Valid w ∧ written w = [] := by
  have hdelivers := withCapacity_delivers capacity
  obtain ⟨b, hensure⟩ : ∃ b, Buffer.ensure 1 ⟨Array.replicate capacity 0, 0⟩ = .ok () b :=
    Buffer.ensure_ok (show 2 * (0 + 1) ≤ Limits.maxAllocation by decide)
  have hok : withCapacity capacity = .ok ⟨b, .start⟩ := by
    rw [withCapacity, Buffer.withCapacity_ok h]
    change ofBuffer _ = _
    simp only [ofBuffer, hensure]
  rw [hok] at hdelivers
  exact ⟨_, hok, hdelivers⟩

end Sparse.Writer

end WordStream
