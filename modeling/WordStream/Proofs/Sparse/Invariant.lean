import WordStream.Proofs.Sparse.BitString
import WordStream.Proofs.Stream.History
import WordStream.Proofs.Stream.Items

/-!
# The invariant of the sparse writer

Every call leaves the byte under the cursor inside the array, and zero behind the bits that are written in
it.  Moves are no exception: neither one that leads past all that is written, where the array holds what
was left over, nor one that is refused after it has aligned.  So nothing is ever stored, merged or shown
outside of the array, and a byte that is merged in shows just its own bits.
-/

namespace WordStream.Sparse

namespace Writer

theorem length_le_capacity {w : Writer} (h : w.Sound) : w.length ≤ w.buffer.capacity := by
  have hroom := h.room
  unfold length
  split <;> omega

/-- Wherever a writer is moved, it is sound afterwards, also if the array ends before that place and the
move is refused. -/
theorem caught_setPosition_achieves {w : Writer} (h : w.Sound) (position : Nat) :
    Achieves (caught (setPosition position)) w fun told w' => w'.Sound ∧
      (told.isOk = true ∨
        told = .error (.beyondCapacity position w'.capacity) ∧ w'.capacity < position) := by
  have halign : Achieves (discard align) w fun _ w' => w'.Sound ∧ w'.bit.val = 0 :=
    Achieves.map ((align_achieves h).mono fun _ _ hpost => ⟨hpost.1, hpost.2.1⟩)
  refine halign.caught_bind ?_
  rintro _ v ⟨hsound, hbit⟩
  by_cases hposition : position ≤ v.buffer.capacity
  · have hensure : Achieves (onBuffer (Buffer.ensure 1)) ⟨v.buffer.movedTo position, v.bit⟩
        fun _ w' => w'.Sound := by
      refine onBuffer_achieves ((Buffer.ensureOne_achieves (hsound.fits.movedTo hposition)).mono ?_)
      rintro _ b ⟨hfits, -, -, hroom⟩
      exact .of_aligned hfits hroom hbit
    exact (Achieves.bind_ok (onBuffer_ok (Buffer.setPosition_ok hposition)) hensure).caught
      fun _ _ hpost => ⟨hpost, .inl rfl⟩
  · have hmove : onBuffer (Buffer.setPosition position) v =
        .error (.beyondCapacity position v.buffer.capacity) v :=
      onBuffer_error (Buffer.setPosition_error hposition)
    exact Achieves.caught_of_error (bind_of_error hmove) rfl
      ⟨hsound, .inr ⟨rfl, Nat.lt_of_not_le hposition⟩⟩

end Writer

namespace Call

/-- What a call may tell, where it leaves `w`: only a move is refused, and only one past the array. -/
def MayTell (call : Call) (told : Except Fault (Option Nat)) (w : Writer) : Prop :=
  told.isOk = true ∨ ∃ position, call = .setPosition position ∧
    told = .error (.beyondCapacity position w.capacity) ∧ w.capacity < position

/-- Every call leaves a writer sound. -/
theorem caught_run_achieves (call : Call) {w : Writer} (h : w.Sound) :
    Achieves (caught call.run) w fun told w' => w'.Sound ∧ call.MayTell told w' := by
  have hinside : ∀ {call : Call}, call.StaysInside w.bits →
      Achieves (caught call.run) w fun told w' => w'.Sound ∧ call.MayTell told w' := fun hinside =>
    (run_achieves _ h hinside).caught fun _ _ hpost => ⟨hpost.1, .inl rfl⟩
  cases call with
  | word w => exact hinside trivial
  | zero => exact hinside trivial
  | align => exact hinside trivial
  | setPosition position =>
      refine Achieves.caught_map (fun _ => none) ?_
      refine (Writer.caught_setPosition_achieves h position).mono ?_
      rintro told w' ⟨hsound, hok | ⟨rfl, hlt⟩⟩
      · refine ⟨hsound, .inl ?_⟩
        cases told with
        | ok u => rfl
        | error fault => cases hok
      · exact ⟨hsound, .inr ⟨position, rfl, rfl, hlt⟩⟩

end Call

/-! ## Operations -/

/-- What a writer can be asked for: a typed write, or a call that shapes the output. -/
inductive Operation where
  | write (item : Item)
  | call (call : Call)
  deriving DecidableEq

namespace Operation

/-- Carry the operation out; only aligning tells a position. -/
def run : Operation → WriteM Writer (Option Nat)
  | write item => do
      item.write
      return none
  | call c => c.run

/-- What an operation may tell, where it leaves `w`: only a move past the array is refused. -/
def MayTell : Operation → Except Fault (Option Nat) → Writer → Prop
  | write _, told, _ => told.isOk = true
  | call c, told, w => c.MayTell told w

/-- Every operation leaves a writer sound; typed writes come down to words. -/
theorem caught_run_achieves (operation : Operation) {w : Writer} (h : w.Sound) :
    Achieves (caught operation.run) w fun told w' => w'.Sound ∧ operation.MayTell told w' := by
  cases operation with
  | write item =>
      have hwrite : Achieves (item.write : WriteM Writer Unit) w fun _ w' => w'.Sound :=
        (item.appends_write w h).mono fun _ _ hpost => hpost.1
      exact (hwrite.bind fun _ w' hsound => Achieves.pure hsound).caught fun a w' hsound =>
        ⟨hsound, rfl⟩
  | call c => exact c.caught_run_achieves h

/-- What an act achieves from every sound writer, it achieves after any operations on a new one. -/
theorem around_delivers (capacity : Nat) (operations : List Operation) {act : WriteM Writer Unit}
    {post : Writer → Writer → Prop}
    (hact : ∀ w : Writer, w.Sound → Achieves act w fun _ w' => post w w') :
    Delivers (around (Writer.withCapacity capacity) run operations act) fun result =>
      (operations = [] → result.1.cursor.bitPosition = 0) ∧ post result.1 result.2 := by
  have hstart : Delivers (Writer.withCapacity capacity) fun w =>
      w.Sound ∧ w.cursor.bitPosition = 0 :=
    (Writer.withCapacity_delivers capacity).mono_of_ok fun _ _ hw =>
      ⟨hw.1, by rw [← Writer.length_bits hw.1, hw.2, List.length_nil]⟩
  exact hstart.around (fun operation _ hw =>
    (operation.caught_run_achieves hw).mono fun _ _ hpost => hpost.1) hact operations

/-- Act on a new writer that some operations have led on: the writer before and after the act. -/
def actAfter (capacity : Nat) (operations : List Operation) (act : WriteM Writer Unit) :
    Except Fault (Writer × Writer) :=
  around (Writer.withCapacity capacity) run operations act

theorem exists_actAfter {capacity : Nat} {operations : List Operation} {act : WriteM Writer Unit}
    {post : Writer → Writer → Prop}
    (hact : ∀ w : Writer, w.Sound → Achieves act w fun _ w' => post w w')
    (hgranted : AllocationGranted (actAfter capacity operations act)) :
    ∃ w w', actAfter capacity operations act = .ok (w, w') ∧ post w w' := by
  obtain ⟨⟨w, w'⟩, hok, -, hpost⟩ := (around_delivers capacity operations hact).exists_ok hgranted
  exact ⟨w, w', hok, hpost⟩

end Operation

/-! ## The states of a writer, said of its array -/

namespace Writer

/-- The cursor is inside of the array, and the byte under it is zero behind the bits that are written. -/
structure Intact (w : Writer) : Prop where
  bit_lt : w.cursor.bit.val < 8
  byte_lt : w.cursor.byte < w.capacity
  length_le : w.length ≤ w.capacity
  clear : w.cursor.bit.val ≠ 0 → ∃ byte, w.buffer.bytes[w.cursor.byte]? = some byte ∧
    byte.toNat % 2 ^ (8 - w.cursor.bit.val) = 0

/-- Bytes are stored, merged and shown inside of the array, and a merge changes only the byte under the
cursor: the bits that are written stay, and the high bits of the byte that is merged in follow them. -/
structure Accessible (w : Writer) : Prop where
  store : ∀ byte, onBuffer (Buffer.storeCurrent byte) w =
    .ok () ⟨{ w.buffer with bytes := w.buffer.bytes.setIfInBounds w.cursor.byte byte }, w.bit⟩
  merge : w.cursor.bit.val ≠ 0 → ∀ byte, ∃ old merged,
    w.buffer.bytes[w.cursor.byte]? = some old ∧
    onBuffer (Buffer.mergeCurrent (byte >>> UInt8.ofNat w.cursor.bit.val)) w =
      .ok () ⟨{ w.buffer with bytes := w.buffer.bytes.setIfInBounds w.cursor.byte merged }, w.bit⟩ ∧
    Bits.ofByte merged = (Bits.ofByte old).take w.cursor.bit.val ++
      (Bits.ofByte byte).take (8 - w.cursor.bit.val)
  shown : w.toBytes.size = w.length

theorem Sound.intact {w : Writer} (h : w.Sound) : w.Intact where
  bit_lt := w.bit.isLt
  byte_lt := h.room
  length_le := length_le_capacity h
  clear hbit := by
    obtain ⟨byte, hbyte, hzeros⟩ := h.clear hbit
    exact ⟨byte, hbyte, Bits.toNat_mod_of_drop (Nat.le_of_lt w.bit.isLt) hzeros⟩

/-- Replacing the byte at the position by its image is storing the image there. -/
theorem modify_eq_store {w : Writer} {old : UInt8} (hold : w.buffer.current? = some old)
    (f : UInt8 → UInt8) :
    onBuffer (Buffer.modifyCurrent f) w =
      .ok () ⟨{ w.buffer with bytes := w.buffer.bytes.setIfInBounds w.cursor.byte (f old) },
        w.bit⟩ := by
  obtain ⟨hroom, -⟩ := Array.getElem?_eq_some_iff.mp hold
  rw [modify_ok hroom, Buffer.mapCurrent_eq_store hold]
  rfl

theorem Sound.accessible {w : Writer} (h : w.Sound) : w.Accessible where
  store byte := by
    obtain ⟨old, hold⟩ := Buffer.exists_current h.room
    exact modify_eq_store hold fun _ => byte
  merge hbit byte := by
    obtain ⟨old, hold, hzeros⟩ := h.clear hbit
    exact ⟨old, old ||| byte >>> UInt8.ofNat w.cursor.bit.val, hold,
      modify_eq_store hold (· ||| byte >>> UInt8.ofNat w.cursor.bit.val),
      Bits.ofByte_merge byte w.bit.isLt hzeros⟩
  shown := by
    have hle := length_le_capacity h
    rw [Buffer.capacity] at hle
    rw [toBytes, Buffer.firstBytes, Array.size_extract, Nat.sub_zero, Nat.min_eq_left hle]

end Writer

/-- From a new writer, whatever its capacity, and unless an allocation is refused, operations of any kind
lead from one intact state to another.  No access misses the array, during an operation or after it, and
only moves past the array are refused. -/
theorem states_stay_intact (capacity : Nat) (operations : List Operation)
    (hgranted : AllocationGranted
      (history (Writer.withCapacity capacity) Operation.run operations)) :
    ∃ shown w,
      history (Writer.withCapacity capacity) Operation.run operations = .ok (shown, w) ∧
      w.Intact ∧ w.Accessible ∧
      List.Forall₂ (fun operation x =>
        x.2.Intact ∧ x.2.Accessible ∧ operation.MayTell x.1 x.2) operations shown := by
  have hstart := (Writer.withCapacity_delivers capacity).mono_of_ok fun _ _ hw => hw.1
  have hrun := hstart.history
    (fun operation _ hw => Operation.caught_run_achieves operation hw) operations
  obtain ⟨⟨shown, w⟩, hok, hw, hshown⟩ := hrun.exists_ok hgranted
  refine ⟨shown, w, hok, hw.intact, hw.accessible, hshown.imp ?_⟩
  rintro operation x ⟨hx, htold⟩
  exact ⟨hx.intact, hx.accessible, htold⟩

/-- From no capacity: a move that is refused inside of a byte, moves back over ones and to the end of the
array, and words that straddle what was left over. -/
theorem states_stay_intact_after_moves :
    ∃ shown w,
      history (Writer.withCapacity 0) Operation.run
        [.write (.float 0x7FA00001), .call .zero, .call (.setPosition 11), .call (.setPosition 2),
          .call .zero, .write (.long (-2)), .call (.setPosition 10), .call (.word 0xFFFFFFFF),
          .call .align] = .ok (shown, w) ∧
      w.Intact ∧ w.Accessible ∧
      List.Forall₂ (fun (operation : Operation) x =>
        x.2.Intact ∧ x.2.Accessible ∧ operation.MayTell x.1 x.2)
        [.write (.float 0x7FA00001), .call .zero, .call (.setPosition 11), .call (.setPosition 2),
          .call .zero, .write (.long (-2)), .call (.setPosition 10), .call (.word 0xFFFFFFFF),
          .call .align] shown :=
  states_stay_intact 0 _ (by decide +kernel)

end WordStream.Sparse
