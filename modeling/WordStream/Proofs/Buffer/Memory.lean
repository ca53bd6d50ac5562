import Mathlib.Logic.Function.Basic
import WordStream.Proofs.Buffer
import WordStream.Proofs.Together

/-!
# Buffers as memory without an end

A buffer is seen as a memory that goes on with zeros where its array ends.  Growth with the position at
the end of the array leaves this memory as it is, so that two buffers that differ in nothing but their
capacity stay so, whenever each of them grows.
-/

namespace WordStream.Buffer

/-- The byte at an index, zero where the array has none. -/
def memory (b : Buffer) (i : Nat) : UInt8 := b.bytes.getD i 0

theorem memory_eq (b : Buffer) (i : Nat) : b.memory i = b.bytes[i]?.getD 0 :=
  Array.getD_eq_getD_getElem?

theorem memory_of_le {b : Buffer} {i : Nat} (h : b.capacity ≤ i) : b.memory i = 0 := by
  rw [memory_eq, Array.getElem?_eq_none h, Option.getD_none]

/-- The first bytes of an array can be told from the memory. -/
theorem toList_firstBytes {b : Buffer} {count : Nat} (h : count ≤ b.capacity) :
    (b.firstBytes count).toList = (List.range count).map b.memory := by
  have hsize : count ≤ b.bytes.size := h
  apply List.ext_getElem
  · simp [firstBytes, hsize]
  · intro i hi hi'
    rw [List.length_map, List.length_range] at hi'
    simp [firstBytes, memory_eq, Array.getElem?_eq_getElem (show i < b.bytes.size by omega)]

theorem withCapacity_memory {capacity : Nat} {b : Buffer} (h : withCapacity capacity = .ok b) :
    b.position = 0 ∧ b.memory = fun _ => 0 := by
  unfold withCapacity at h
  split at h
  · cases h
    refine ⟨rfl, funext fun i => ?_⟩
    rw [memory_eq, Array.getElem?_replicate]
    split
    · rfl
    · rfl
  · cases h

/-! ## Storing and growing -/

theorem mapCurrent_memory (f : UInt8 → UInt8) {b : Buffer} (h : b.position < b.capacity) :
    (b.mapCurrent f).memory =
      Function.update b.memory b.position (f (b.memory b.position)) := by
  funext i
  rw [memory_eq, mapCurrent, Array.getElem?_modify]
  by_cases hi : b.position = i
  · subst hi
    rw [if_pos rfl, Function.update_self, memory_eq, Array.getElem?_eq_getElem h]
    rfl
  · rw [if_neg hi, Function.update_of_ne (Ne.symm hi), memory_eq]

/-- Where all of the array lies before the position, growth loses no byte. -/
theorem grown_memory {b : Buffer} (h : b.capacity ≤ b.position) : b.grown.memory = b.memory := by
  have hall : b.written = b.bytes := Array.extract_eq_self_of_le h
  funext i
  rw [memory_eq, memory_eq, grown, hall]
  by_cases hi : i < b.bytes.size
  · rw [Array.getElem?_append_left hi]
  · have hle : b.bytes.size ≤ i := Nat.le_of_not_lt hi
    rw [Array.getElem?_append_right hle, Array.getElem?_eq_none hle, Array.getElem?_replicate]
    split
    · rfl
    · rfl

/-! ## Two buffers -/

/-- Two buffers that differ in nothing but their capacity. -/
structure Twins (b b' : Buffer) : Prop where
  position : b'.position = b.position
  memory : b'.memory = b.memory

/-- An action that may make room, but leaves the position and the memory as they are. -/
def Steady (act : WriteM Buffer Unit) : Prop := ∀ b b', act b = .ok () b' → Twins b b'

theorem Steady.together {act : WriteM Buffer Unit} (h : Steady act) : Together Twins act act := by
  intro b b' _ _ c c' hb hrun hrun'
  have hc := h b c hrun
  have hc' := h b' c' hrun'
  refine ⟨rfl, ?_, ?_⟩
  · rw [hc'.position, hc.position, hb.position]
  · rw [hc'.memory, hc.memory, hb.memory]

theorem grown_twins {b : Buffer} (h : b.capacity ≤ b.position) : Twins b b.grown :=
  ⟨grown_position b, grown_memory h⟩

theorem growIfFull_steady : Steady growIfFull := by
  intro b b' hrun
  unfold growIfFull at hrun
  split at hrun
  · next hfull =>
      unfold grow at hrun
      split at hrun
      · cases hrun
        exact grown_twins (by simpa [isFull] using hfull)
      · cases hrun
  · cases hrun
    exact ⟨rfl, rfl⟩

/-- Room for one byte is missing only where the position is at the end of the array, or past it. -/
theorem ensureOne_steady : Steady (ensure 1) := by
  have hgrowTo : ∀ needed b b', needed ≤ b.position + 1 → growTo needed b = .ok () b' →
      Twins b b' := by
    intro needed b b' hneeded hrun
    fun_induction growTo needed b with
    | case1 b hlt hgrow ih =>
        have hgrown := grown_twins (show b.capacity ≤ b.position by omega)
        have hrest := ih hneeded hrun
        exact ⟨hrest.position.trans hgrown.position, hrest.memory.trans hgrown.memory⟩
    | case2 b hlt hgrow => cases hrun
    | case3 b hle =>
        cases hrun
        exact ⟨rfl, rfl⟩
  intro b b' hrun
  unfold ensure at hrun
  split at hrun
  · exact hgrowTo _ b b' (Nat.le_refl _) hrun
  · cases hrun

theorem step_together : Together Twins step step := by
  intro b b' _ _ c c' hb hrun hrun'
  cases hrun
  cases hrun'
  exact ⟨rfl, congrArg (· + 1) hb.position, hb.memory⟩

theorem setPosition_together (position : Nat) :
    Together Twins (setPosition position) (setPosition position) := by
  intro b b' _ _ c c' hb hrun hrun'
  unfold setPosition at hrun hrun'
  split at hrun
  · split at hrun'
    · cases hrun
      cases hrun'
      exact ⟨rfl, rfl, hb.memory⟩
    · cases hrun'
  · cases hrun

theorem modifyCurrent_together (f : UInt8 → UInt8) :
    Together Twins (modifyCurrent f) (modifyCurrent f) := by
  intro b b' _ _ c c' hb hrun hrun'
  by_cases h : b.position < b.capacity
  · by_cases h' : b'.position < b'.capacity
    · rw [modifyCurrent_ok h] at hrun
      rw [modifyCurrent_ok h'] at hrun'
      cases hrun
      cases hrun'
      refine ⟨rfl, hb.position, ?_⟩
      rw [mapCurrent_memory f h, mapCurrent_memory f h', hb.position, hb.memory]
    · cases (if_neg h').symm.trans hrun'
  · cases (if_neg h).symm.trans hrun

theorem advance_together : Together Twins advance advance :=
  step_together.bind fun _ => growIfFull_steady.together

end WordStream.Buffer
