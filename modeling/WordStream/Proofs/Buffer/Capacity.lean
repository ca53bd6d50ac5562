import WordStream.Proofs.Buffer.Motion

/-!
# Buffers only grow

No operation on a buffer makes its array smaller, whatever the buffer and however the operation ends.
-/

namespace WordStream

namespace Buffer

/-- A buffer and a later one, of at least the same capacity. -/
def Widens (b b' : Buffer) : Prop := b.capacity ≤ b'.capacity

theorem widens_stepwise : Stepwise Widens := ⟨fun _ => Nat.le_refl _, Nat.le_trans⟩

theorem grown_widens (b : Buffer) : Widens b b.grown := by
  unfold Widens
  rw [grown_capacity]
  exact Nat.le_of_lt (capacity_lt_grownCapacity b.capacity)

theorem grow_widens : Moves Widens grow := by
  intro b
  unfold grow
  split
  · exact b.grown_widens
  · exact widens_stepwise.refl b

theorem growTo_widens (needed : Nat) : Moves Widens (growTo needed) := by
  intro b
  fun_induction growTo needed b with
  | case1 b hlt hgrow ih => exact widens_stepwise.trans b.grown_widens ih
  | case2 b hlt hgrow => exact widens_stepwise.refl b
  | case3 b hle => exact widens_stepwise.refl b

theorem ensure_widens (count : Nat) : Moves Widens (ensure count) := by
  intro b
  unfold ensure
  split
  · exact growTo_widens _ b
  · exact widens_stepwise.refl b

theorem setPosition_widens (position : Nat) : Moves Widens (setPosition position) := by
  intro b
  unfold setPosition
  split
  · exact Nat.le_refl b.capacity
  · exact widens_stepwise.refl b

theorem modifyCurrent_widens (f : UInt8 → UInt8) : Moves Widens (modifyCurrent f) := by
  rintro ⟨bytes, position⟩
  unfold modifyCurrent Widens capacity
  by_cases h : position < bytes.size
  · simp [h, leaves]
  · simp [h, leaves]

theorem growIfFull_widens : Moves Widens growIfFull := by
  intro b
  unfold growIfFull
  split
  · exact grow_widens b
  · exact widens_stepwise.refl b

theorem widens_movesOnSteps : MovesOnSteps Widens where
  toStepwise := widens_stepwise
  modifyCurrent := modifyCurrent_widens
  step b := Nat.le_refl b.capacity
  growIfFull := growIfFull_widens

end Buffer

end WordStream
