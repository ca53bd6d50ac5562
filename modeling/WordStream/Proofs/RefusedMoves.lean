import WordStream.Proofs.Sparse.Patch
import WordStream.Proofs.Standard.Patch

/-!
# Moves and reservations that are refused

A move past the end of a buffer is refused, and so is a reservation that would end past the last address.
Both are seen before anything is changed, except that a sparse writer aligns before it is moved.  That may
make its buffer larger, and it is the larger one that a move has to stay inside of; yet it changes nothing
of the output.
-/

namespace WordStream

section

variable {σ α : Type}

theorem caught_of_error {act : WriteM σ α} {s s' : σ} {fault : Fault}
    (hrun : act s = .error fault s') (hfault : fault.isAllocation = false) :
    caught act s = .ok (.error fault) s' := by
  simp [caught, hrun, hfault]

/-- An action that is refused under this condition and no other, with this fault, and leaves this state,
as long as no allocation is refused to it.  What is done after it has been refused is done from there. -/
structure RefusedWhen (act : WriteM σ α) (s : σ) (condition : Prop) (fault : Fault) (left : σ) :
    Prop where
  error_iff : ∀ f t, f.isAllocation = false →
    (act s = .error f t ↔ condition ∧ f = fault ∧ t = left)
  after : condition → ∀ {γ : Type} (later : WriteM σ γ), (caught act >>= fun _ => later) s = later left

namespace RefusedWhen

variable {act : WriteM σ α} {s left : σ} {condition : Prop} {fault : Fault}

/-- It is enough to know the one fault, and that only an allocation is refused otherwise. -/
theorem of_error (hfault : fault.isAllocation = false) (hrefused : condition → act s = .error fault left)
    (hgranted : ¬ condition → Achieves act s fun _ _ => True) :
    RefusedWhen act s condition fault left where
  error_iff := by
    intro f t hf
    constructor
    · intro hrun
      by_cases hcondition : condition
      · rw [hrefused hcondition] at hrun
        cases hrun
        exact ⟨hcondition, rfl, rfl⟩
      · rw [(hgranted hcondition).isAllocation_of_error hrun] at hf
        cases hf
    · rintro ⟨hcondition, rfl, rfl⟩
      exact hrefused hcondition
  after := by
    intro hcondition γ later
    exact bind_of_ok (caught_of_error (hrefused hcondition) hfault)

end RefusedWhen

end

namespace Buffer

theorem setPosition_refused (position : Nat) (b : Buffer) :
    RefusedWhen (setPosition position) b (b.capacity < position)
      (.beyondCapacity position b.capacity) b :=
  .of_error rfl (fun h => setPosition_error (Nat.not_le_of_lt h)) fun h =>
    Achieves.of_ok (setPosition_ok (Nat.le_of_not_lt h)) trivial

/-- However much room is asked for, growth is stopped by nothing but an allocation. -/
theorem growTo_granted (needed : Nat) (b : Buffer) : Achieves (growTo needed) b fun _ _ => True := by
  fun_induction growTo needed b with
  | case1 b hlt hgrow ih =>
      exact Achieves.of_eq (by rw [growTo, if_pos hlt, if_pos hgrow]) ih
  | case2 b hlt hgrow =>
      exact Achieves.of_error (by rw [growTo, if_pos hlt, if_neg hgrow]) rfl
  | case3 b hle => exact Achieves.of_ok (by rw [growTo, if_neg hle]) trivial

theorem ensure_refused (count : Nat) (b : Buffer) :
    RefusedWhen (ensure count) b (Limits.addressBound ≤ b.position + count)
      (.sizeOverflow b.position count) b :=
  .of_error rfl (fun h => if_neg (Nat.not_lt_of_le h)) fun h =>
    Achieves.of_eq (if_pos (Nat.lt_of_not_le h)) (growTo_granted (b.position + count) b)

end Buffer

theorem Standard.Writer.setPosition_refused (position : Nat) (w : Writer) :
    RefusedWhen (setPosition position) w (w.capacity < position)
      (.beyondCapacity position w.capacity) w :=
  .of_error rfl (fun h => setPosition_error (Nat.not_le_of_lt h)) fun h =>
    Achieves.of_ok (setPosition_ok (Nat.le_of_not_lt h)) trivial

namespace Sparse.Writer

/-- Aligning shows nothing new. -/
theorem align_shows {w : Writer} (h : w.Sound) :
    Achieves align w fun told w' => w'.Sound ∧ w'.bit.val = 0 ∧ told = w.length ∧
      w'.toBytes = w.toBytes ∧ w'.length = w.length := by
  refine (align_achieves h).mono ?_
  rintro told w' ⟨hsound, hbit, hbits, rfl⟩
  have hlength : w'.length = w.length := by
    rw [length_eq_bits hsound, length_eq_bits h, hbits, Bits.length_aligned]
    omega
  have hbytes : w'.toBytes = w.toBytes := by
    apply Array.toList_inj.mp
    apply Bits.ofBytes_injective
    rw [ofBytes_toBytes hsound, ofBytes_toBytes h, hbits, Bits.aligned_aligned]
  exact ⟨hsound, hbit, by rw [← length_of_aligned hbit, hlength], hbytes, hlength⟩

/-- A move is made or refused after the writer has been aligned. -/
theorem setPosition_refused {w aligned : Writer} {told : Nat} (h : aligned.Sound)
    (halign : align w = .ok told aligned) (position : Nat) :
    RefusedWhen (setPosition position) w (aligned.capacity < position)
      (.beyondCapacity position aligned.capacity) aligned := by
  have hfirst : discard align w = .ok () aligned := discard_of_ok halign
  refine .of_error rfl (fun hlt => ?_) fun hlt => ?_
  · have hmove : onBuffer (Buffer.setPosition position) aligned =
        .error (.beyondCapacity position aligned.buffer.capacity) aligned :=
      onBuffer_error (Buffer.setPosition_error (Nat.not_le_of_lt hlt))
    exact (bind_of_ok hfirst).trans (bind_of_error hmove)
  · have hposition : position ≤ aligned.buffer.capacity := Nat.le_of_not_lt hlt
    have hmove : onBuffer (Buffer.setPosition position) aligned =
        .ok () ⟨aligned.buffer.movedTo position, aligned.bit⟩ :=
      onBuffer_ok (Buffer.setPosition_ok hposition)
    have hensure := Buffer.ensureOne_achieves (h.fits.movedTo hposition)
    exact Achieves.bind_ok hfirst (Achieves.bind_ok hmove
      (onBuffer_achieves (hensure.mono fun _ _ _ => trivial)))

end Sparse.Writer

/-- Unless an allocation is refused, a move is refused just where it would lead past the array, and a
reservation just where it would end past the last address, and both leave a buffer and a standard writer
as they are.  A sparse writer is left as aligning leaves it, which is where the array is looked at; it
shows the same as before, and aligning it again changes nothing.  What is done after a refusal is done
from there. -/
theorem refused_moves_keep_the_output :
    (∀ (b : Buffer) (position : Nat),
      RefusedWhen (Buffer.setPosition position) b (b.capacity < position)
        (.beyondCapacity position b.capacity) b) ∧
    (∀ (b : Buffer) (count : Nat),
      RefusedWhen (Buffer.ensure count) b (Limits.addressBound ≤ b.position + count)
        (.sizeOverflow b.position count) b) ∧
    (∀ (w : Standard.Writer) (position : Nat),
      RefusedWhen (Standard.Writer.setPosition position) w (w.capacity < position)
        (.beyondCapacity position w.capacity) w) ∧
    ∀ (capacity : Nat) (operations : List Sparse.Operation),
      AllocationGranted (around (Sparse.Writer.withCapacity capacity) Sparse.Operation.run operations
        (discard Sparse.Writer.align)) →
      ∃ w aligned, around (Sparse.Writer.withCapacity capacity) Sparse.Operation.run operations
          (discard Sparse.Writer.align) = .ok (w, aligned) ∧
        Sparse.Writer.align w = .ok w.length aligned ∧
        aligned.toBytes = w.toBytes ∧ aligned.length = w.length ∧
        Sparse.Writer.align aligned = .ok aligned.length aligned ∧
        ∀ position, RefusedWhen (Sparse.Writer.setPosition position) w (aligned.capacity < position)
          (.beyondCapacity position aligned.capacity) aligned := by
  refine ⟨fun b position => b.setPosition_refused position, fun b count => b.ensure_refused count,
    fun w position => w.setPosition_refused position, fun capacity operations hgranted => ?_⟩
  have hact : ∀ w : Sparse.Writer, w.Sound →
      Achieves (discard Sparse.Writer.align) w fun _ w' => w'.Sound ∧ w'.bit.val = 0 ∧
        Sparse.Writer.align w = .ok w.length w' ∧ w'.toBytes = w.toBytes ∧ w'.length = w.length := by
    refine fun w hw => Achieves.map ((Sparse.Writer.align_shows hw).and_run.mono ?_)
    rintro _ w' ⟨⟨hsound, hbit, rfl, hbytes, hlength⟩, hrun⟩
    exact ⟨hsound, hbit, hrun, hbytes, hlength⟩
  obtain ⟨⟨w, aligned⟩, hok, -, hsound, hbit, halign, hbytes, hlength⟩ :=
    (Sparse.Operation.around_delivers capacity operations hact).exists_ok hgranted
  refine ⟨w, aligned, hok, halign, hbytes, hlength, ?_, fun position =>
    Sparse.Writer.setPosition_refused hsound halign position⟩
  rw [Sparse.Writer.length_of_aligned hbit]
  exact Sparse.Writer.align_of_aligned hbit

/-- An empty buffer of 64 bytes; and a writer that has room for two bytes and has written a zero in the
second one.  For aligning it needs a third, and its array grows to ten bytes before a move is refused. -/
theorem refused_moves_keep_a_begun_byte :
    Buffer.setPosition 65 .empty = .error (.beyondCapacity 65 64) .empty ∧
    Buffer.ensure Limits.addressBound .empty = .error (.sizeOverflow 0 Limits.addressBound) .empty ∧
    Standard.Writer.setPosition 65 .empty = .error (.beyondCapacity 65 64) .empty ∧
    ∃ w aligned, around (Sparse.Writer.withCapacity 2) Sparse.Operation.run
        [.call (.word 1), .call .zero] (discard Sparse.Writer.align) = .ok (w, aligned) ∧
      w.capacity = 2 ∧ aligned.toBytes = w.toBytes ∧
      Sparse.Writer.setPosition 11 w = .error (.beyondCapacity 11 10) aligned := by
  obtain ⟨hbuffer, hensure, hstandard, hsparse⟩ := refused_moves_keep_the_output
  refine ⟨?_, ?_, ?_, ?_⟩
  · exact ((hbuffer .empty 65).error_iff _ _ rfl).mpr ⟨by decide, rfl, rfl⟩
  · exact ((hensure .empty Limits.addressBound).error_iff _ _ rfl).mpr ⟨by decide, rfl, rfl⟩
  · exact ((hstandard .empty 65).error_iff _ _ rfl).mpr ⟨by decide, rfl, rfl⟩
  · obtain ⟨w, aligned, hrun, -, hbytes, -, -, hrefused⟩ :=
      hsparse 2 [.call (.word 1), .call .zero] (by decide +kernel)
    have hcapacities : (around (Sparse.Writer.withCapacity 2) Sparse.Operation.run
        [.call (.word 1), .call .zero] (discard Sparse.Writer.align)).toOption.map
          (fun x => (x.1.capacity, x.2.capacity)) = some (2, 10) := by
      decide +kernel
    rw [hrun] at hcapacities
    obtain ⟨hbefore, hafter⟩ := Prod.mk.inj (Option.some.inj hcapacities)
    have hlarger : aligned.capacity = 10 := hafter
    have hmove := hrefused 11
    rw [hlarger] at hmove
    exact ⟨w, aligned, hrun, hbefore, hbytes, (hmove.error_iff _ _ rfl).mpr ⟨by decide, rfl, rfl⟩⟩

end WordStream
