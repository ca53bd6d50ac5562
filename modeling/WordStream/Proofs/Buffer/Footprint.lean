import WordStream.Proofs.Buffer.Capacity
import WordStream.Proofs.Buffer.Memory

/-!
# What a buffer keeps of its memory

Bytes are written from the position on, one after the other, and a growth that finds the position at the
end of the array loses none.  So whatever is written that way touches nothing of the memory but what it
steps over, and, if it goes on inside of a byte, the byte that it stops at.
-/

namespace WordStream.Buffer

/-- A buffer and a later one, further on, with the same memory outside of what lies between them. -/
structure Touches (b b' : Buffer) : Prop where
  widens : Widens b b'
  position_le : b.position ≤ b'.position
  outside : ∀ i, i < b.position ∨ b'.position < i → b'.memory i = b.memory i

/-- A buffer and a later one, where the byte under the later position is not touched either. -/
structure Fills (b b' : Buffer) : Prop extends Touches b b' where
  ahead : b'.memory b'.position = b.memory b'.position

theorem touches_stepwise : Stepwise Touches where
  refl b := ⟨widens_stepwise.refl b, Nat.le_refl _, fun _ _ => rfl⟩
  trans {b b' b''} h h' := by
    have hle := h.position_le
    have hle' := h'.position_le
    refine ⟨widens_stepwise.trans h.widens h'.widens, Nat.le_trans hle hle', fun i hi => ?_⟩
    rw [h'.outside i (by omega), h.outside i (by omega)]

theorem fills_stepwise : Stepwise Fills where
  refl b := ⟨touches_stepwise.refl b, rfl⟩
  trans {b b' b''} h h' := by
    refine ⟨touches_stepwise.trans h.toTouches h'.toTouches, ?_⟩
    rw [h'.ahead]
    rcases Nat.lt_or_eq_of_le h'.position_le with hlt | heq
    · exact h.outside _ (.inr hlt)
    · rw [← heq, h.ahead]

theorem touches_of_fills {α : Type} {act : WriteM Buffer α} (h : Moves Fills act) : Moves Touches act :=
  fun b => (h b).toTouches

theorem step_fills : Moves Fills step :=
  fun b => ⟨⟨widens_stepwise.refl b, Nat.le_succ _, fun _ _ => rfl⟩, rfl⟩

theorem growIfFull_fills : Moves Fills growIfFull := by
  intro b
  by_cases hfull : b.isFull = true
  · have hend : b.capacity ≤ b.position := by simpa [isFull] using hfull
    have hmemory := grown_memory hend
    rw [growIfFull, if_pos hfull, grow]
    split
    · exact ⟨⟨b.grown_widens, Nat.le_refl _, fun i _ => congrFun hmemory i⟩, congrFun hmemory _⟩
    · exact fills_stepwise.refl b
  · rw [growIfFull, if_neg hfull]
    exact fills_stepwise.refl b

theorem advance_fills : Moves Fills advance :=
  step_fills.bind fills_stepwise fun _ => growIfFull_fills

theorem modifyCurrent_touches (f : UInt8 → UInt8) : Moves Touches (modifyCurrent f) := by
  intro b
  by_cases hroom : b.position < b.capacity
  · rw [modifyCurrent_ok hroom]
    refine ⟨Nat.le_of_eq (mapCurrent_capacity f b).symm, Nat.le_refl _, fun i hi => ?_⟩
    rw [leaves, mapCurrent_memory f hroom]
    exact Function.update_of_ne (by rw [leaves, mapCurrent_position] at hi; omega) _ _
  · have hrun : modifyCurrent f b = .error (.outOfBounds b.position b.bytes.size) b := if_neg hroom
    rw [hrun]
    exact touches_stepwise.refl b

/-- A byte that is stored and stepped over is behind the position. -/
theorem put_fills (byte : UInt8) : Moves Fills (put byte) := by
  intro b
  by_cases hroom : b.position < b.capacity
  · have hmemory := mapCurrent_memory (fun _ => byte) hroom
    rw [put_ok byte hroom]
    refine ⟨⟨Nat.le_of_eq (mapCurrent_capacity _ b).symm, Nat.le_succ _, fun i hi => ?_⟩, ?_⟩
    · exact (congrFun hmemory i).trans (Function.update_of_ne (by
        rw [leaves, stepped_position, mapCurrent_position] at hi
        omega) _ _)
    · exact (congrFun hmemory _).trans (Function.update_of_ne (Nat.succ_ne_self _) _ _)
  · have hrun : storeCurrent byte b = .error (.outOfBounds b.position b.bytes.size) b := if_neg hroom
    rw [put, bind_of_error hrun]
    exact fills_stepwise.refl b

theorem storeCurrent_advance_fills (byte : UInt8) :
    Moves Fills (storeCurrent byte >>= fun _ => advance) := by
  have hput : (storeCurrent byte >>= fun _ => advance) = put byte >>= fun _ => growIfFull :=
    (bind_assoc _ _ _).symm
  rw [hput]
  exact (put_fills byte).bind fills_stepwise fun _ => growIfFull_fills

end WordStream.Buffer
