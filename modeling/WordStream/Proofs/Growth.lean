import WordStream.Proofs.Buffer.Doubling
import WordStream.Proofs.Sizes
import WordStream.Proofs.Sparse.Writer.Motion
import WordStream.Proofs.Standard.Patch

/-!
# The capacity follows the cursor

One growth leaves room for two words of any length, so that a buffer grows once for a word at most,
whether its room is made before it, as in the standard format, or on the way.  Nor does a buffer grow
before its room is needed: whatever calls are made, and wherever they move, its capacity is at most twice
as large as the furthest place that was ever come to, unless it was so from the beginning.
-/

namespace WordStream

/-! ## One word -/

namespace Buffer

/-- The buffer with room for the longest word. -/
def roomy (b : Buffer) : Buffer :=
  if b.position + Limits.maxStandardBytes ≤ b.capacity then b else b.grown

theorem roomy_capacity (b : Buffer) :
    b.roomy.capacity = if b.position + 5 ≤ b.capacity then b.capacity else max (2 * b.capacity) 10 := by
  rw [roomy, apply_ite Buffer.capacity, grown_capacity]
  rfl

/-- Room for the longest word is made by one growth, if not by none. -/
theorem ensure_roomy {b : Buffer} (h : b.Fits) :
    Achieves (ensure Limits.maxStandardBytes) b fun _ b' =>
      b' = b.roomy ∧ b'.Fits ∧ b'.position + Limits.maxStandardBytes ≤ b'.capacity := by
  by_cases hroom : b.position + Limits.maxStandardBytes ≤ b.capacity
  · rw [roomy, if_pos hroom]
    exact Achieves.of_ok (ensure_of_room h hroom) ⟨rfl, h, hroom⟩
  · rw [roomy, if_neg hroom]
    have hfull := Nat.lt_of_not_le hroom
    by_cases hgrow : 2 * b.capacity ≤ Limits.maxAllocation
    · refine Achieves.of_ok (ensure_of_full h hfull hgrow) ⟨rfl, grown_fits h.position_le hgrow, ?_⟩
      rw [grown_position, grown_capacity]
      exact longest_le_grownCapacity h.position_le
    · have hbound := h.position_add_lt Limits.maxStandardBytes (by decide)
      have hrefused : ensure Limits.maxStandardBytes b = .error (.growthOverflow b.capacity) b := by
        rw [ensure, if_pos hbound, growTo, if_pos hfull, if_neg hgrow]
      exact Achieves.of_error hrefused rfl

end Buffer

/-- The bytes of a word find the room that has been made for them. -/
theorem Varint.write_roomy (word : UInt32) {b : Buffer} (h : b.Fits) :
    Achieves (write word) b fun _ b' =>
      Buffer.ensure Limits.maxStandardBytes b = .ok () b.roomy ∧
        Buffer.appendBytes (encode word) b.roomy = .ok () b' ∧ b'.capacity = b.roomy.capacity := by
  refine (Buffer.ensure_roomy h).and_run.bind ?_
  rintro _ _ ⟨⟨rfl, hfits, hroom⟩, hensure⟩
  have hlength := length_encode_le word
  have happend := Buffer.appendBytes_of_room hfits (Nat.le_trans (Nat.add_le_add_left hlength _) hroom)
  exact Achieves.of_ok happend ⟨hensure, happend, Buffer.filled_capacity _ _⟩

namespace Sparse.Writer

theorem doubles_movesOnBytes : MovesOnBytes (Buffer.Doubles 0) :=
  have h := Buffer.doubles_movesOnSteps 0
  ⟨h.toStepwise, h.modifyCurrent, h.advance⟩

theorem writeWord_zero : (writeWord 0 : WriteM Writer Unit) = writeZero := if_pos rfl

/-- The cursor is at most five bytes further on after a word. -/
theorem writeWord_grows_once (word : UInt32) {w : Writer} (h : w.Sound) :
    Achieves (writeWord word) w fun _ w' =>
      w'.capacity =
        if w'.cursor.byte < w.capacity then w.capacity else max (2 * w.capacity) 10 := by
  refine ((appends_code word w h).moved (doubles_movesOnBytes.writeWord word)).mono ?_
  rintro _ w' ⟨⟨hsound, hbits⟩, hdoubles⟩
  have hlength := congrArg List.length (show w'.bits = w.bits ++ code word.toNat from hbits)
  rw [List.length_append, length_bits hsound, length_bits h, length_code, bitPosition_cursor,
    bitPosition_cursor] at hlength
  -- There can be an advance for each of the bytes, but one growth leaves room for all of them.
  have hcode := codeLength_le word
  have hbit := w.bit.isLt
  have hroom := h.room
  refine Buffer.Doubles.capacity_eq hdoubles hsound.room ?_
  change _ < max (2 * w.buffer.capacity) 10
  omega

end Sparse.Writer

/-! ## A run -/

section Runs

variable {σ α ι : Type}

/-- Make a call and go on after it; tell the furthest place that was come to, either on the way there, as
far as that is known from the state before, or at its end. -/
def reaching (run : ι → WriteM σ α) (way : ι → σ → Nat) (place : σ → Nat) (call : ι) : WriteM σ Nat := do
  let passed := way call (← get)
  let _ ← caught (run call)
  return max passed (place (← get))

/-- The furthest of the places that are told along a run. -/
def furthest (shown : List (Nat × Nat)) : Nat := (shown.map Prod.fst).foldr max 0

theorem reaching_achieves (run : ι → WriteM σ α) (way : ι → σ → Nat) (place : σ → Nat) (call : ι)
    (s : σ) :
    Achieves (reaching run way place call) s fun reached s' =>
      s' = leaves (run call s) ∧ reached = max (way call s) (place s') :=
  Achieves.bind_get ((caught_leaves (run call) s).bind fun _ _ hleft =>
    Achieves.bind_get (Achieves.pure ⟨hleft, rfl⟩))

/-- If no call takes more room than twice as much as the furthest place that it comes to, and some bytes
behind it, then neither does a run. -/
theorem traced_reaching_achieves (run : ι → WriteM σ α) (way : ι → σ → Nat) (place capacity : σ → Nat)
    {margin : Nat}
    (hcall : ∀ call s, capacity (leaves (run call s)) ≤ max (capacity s)
      (max 10 (2 * (max (way call s) (place (leaves (run call s))) + margin)))) (calls : List ι) (s : σ) :
    Achieves (traced capacity (calls.map (reaching run way place))) s fun shown s' =>
      capacity s' ≤ max (capacity s) (max 10 (2 * (furthest shown + margin))) ∧
        ∀ x ∈ shown, x.2 ≤ max (capacity s) (max 10 (2 * (furthest shown + margin))) := by
  -- Induction on the calls: after the first one, what it has taken up is the capacity to begin with.
  induction calls generalizing s with
  | nil => exact Achieves.pure ⟨Nat.le_max_left _ _, by simp⟩
  | cons call calls ih =>
      refine Achieves.traced_cons ((reaching_achieves run way place call s).mono ?_)
      rintro reached t ⟨rfl, rfl⟩
      refine (ih _).mono fun shown s' ⟨hlast, hshown⟩ => ?_
      have hfirst := hcall call s
      have hfurthest : furthest ((max (way call s) (place (leaves (run call s))),
          capacity (leaves (run call s))) :: shown) =
            max (max (way call s) (place (leaves (run call s)))) (furthest shown) := rfl
      rw [hfurthest]
      refine ⟨by omega, fun x hx => ?_⟩
      rcases List.mem_cons.mp hx with rfl | hlater
      · dsimp only
        omega
      · have hle := hshown x hlater
        omega

end Runs

theorem Buffer.setPosition_capacity (position : Nat) :
    Moves (fun b b' => b'.capacity = b.capacity) (Buffer.setPosition position) := by
  intro b
  unfold Buffer.setPosition
  split
  · rfl
  · rfl

namespace Standard.Writer

/-- A word asks for the room of the longest one, so that the array may be larger than it needs. -/
theorem doubles_movesOnWrites : MovesOnWrites (OnBuffers (Buffer.Doubles 4)) :=
  movesOnWrites (Buffer.doubles_movesOnSteps 4) fun _ => Buffer.ensure_doubles

theorem capacity_run_le (call : Call) (w : Writer) :
    (leaves (call.run w)).capacity ≤
      max w.capacity (max 10 (2 * (max w.position (leaves (call.run w)).position + 4))) := by
  cases call with
  | item i =>
      have hle := (doubles_movesOnWrites.write i w).capacity_le
      change (leaves (i.write w)).buffer.capacity ≤ max w.buffer.capacity
        (max 10 (2 * (max w.buffer.position (leaves (i.write w)).buffer.position + 4)))
      omega
  | setPosition position =>
      have hsame : (leaves (setPosition position w)).capacity = w.capacity :=
        onBuffer_moves (Buffer.setPosition_capacity position) w
      change (leaves (setPosition position w)).capacity ≤ _
      rw [hsame]
      exact Nat.le_max_left _ _

end Standard.Writer

namespace Sparse

/-- The furthest byte that the cursor comes to before the end of an operation.  A move aligns first, and
can lead back from there. -/
def Operation.passes : Operation → Writer → Nat
  | .call (.setPosition _), w => (leaves (Writer.align w)).cursor.byte
  | _, w => w.cursor.byte

namespace Writer

theorem capacity_le_of_doubles {α : Type} {act : WriteM Writer α}
    (h : Moves (OnBuffers (Buffer.Doubles 0)) act) (w : Writer) :
    (leaves (act w)).capacity ≤ max w.capacity (max 10 (2 * (leaves (act w)).cursor.byte)) :=
  (h w).capacity_le

/-- The second part of a move, which is made after aligning. -/
def moveAligned (position : Nat) : WriteM Writer Unit := do
  onBuffer (Buffer.setPosition position)
  onBuffer (Buffer.ensure 1)

/-- Where a move leads, room is made for one byte. -/
theorem capacity_moveAligned_le (position : Nat) (w : Writer) :
    (leaves (moveAligned position w)).capacity ≤
      max w.capacity (max 10 (2 * (leaves (moveAligned position w)).cursor.byte)) := by
  by_cases hposition : position ≤ w.buffer.capacity
  · have hensure : Moves (OnBuffers (Buffer.Doubles 0)) (onBuffer (Buffer.ensure 1)) := fun v =>
      (onBuffer_moves (Buffer.ensure_doubles (Nat.le_refl 1)) v).1
    rw [moveAligned, bind_of_ok (onBuffer_ok (Buffer.setPosition_ok hposition))]
    exact capacity_le_of_doubles hensure _
  · rw [moveAligned, bind_of_error (onBuffer_error (Buffer.setPosition_error hposition))]
    exact Nat.le_max_left _ _

theorem capacity_setPosition_le (position : Nat) (w : Writer) :
    (leaves (setPosition position w)).capacity ≤ max w.capacity (max 10
      (2 * max (leaves (align w)).cursor.byte (leaves (setPosition position w)).cursor.byte)) := by
  have haligned := capacity_le_of_doubles doubles_movesOnBytes.align w
  cases halign : align w with
  | error fault aligned =>
      rw [halign] at haligned
      rw [setPosition, bind_of_error (discard_of_error halign)]
      simpa [leaves] using haligned
  | ok told aligned =>
      have hrun : setPosition position w = moveAligned position aligned :=
        bind_of_ok (discard_of_ok halign)
      have hmove := capacity_moveAligned_le position aligned
      rw [halign] at haligned
      rw [hrun]
      change aligned.capacity ≤ max w.capacity (max 10 (2 * aligned.cursor.byte)) at haligned
      change _ ≤ max w.capacity (max 10 (2 * max aligned.cursor.byte _))
      omega

end Writer

theorem Operation.capacity_run_le (operation : Operation) (w : Writer) :
    (leaves (operation.run w)).capacity ≤ max w.capacity
      (max 10 (2 * (max (operation.passes w) (leaves (operation.run w)).cursor.byte + 0))) := by
  have hmoves := Writer.doubles_movesOnBytes
  -- All but moves come down to the two steps of which writes are put together.
  have hplain : ∀ {α : Type} {act : WriteM Writer α} (f : α → Option Nat),
      Moves (Writer.OnBuffers (Buffer.Doubles 0)) act →
      (leaves ((act >>= fun a => pure (f a)) w)).capacity ≤ max w.capacity (max 10
        (2 * (max (operation.passes w) (leaves ((act >>= fun a => pure (f a)) w)).cursor.byte + 0))) := by
    intro α act f hact
    have hle := Writer.capacity_le_of_doubles hact w
    rw [leaves_map]
    omega
  cases operation with
  | write item => exact hplain (fun _ => none) (hmoves.movesOnWrites.write item)
  | call c =>
      cases c with
      | word v => exact hplain (fun _ => none) (hmoves.writeWord v)
      | zero => exact hplain (fun _ => none) hmoves.writeZero
      | align => exact hplain some hmoves.align
      | setPosition position =>
          have hleft : leaves ((Operation.call (.setPosition position)).run w) =
              leaves (Writer.setPosition position w) := leaves_map (fun _ => none) _ w
          rw [hleft]
          exact Writer.capacity_setPosition_le position w

/-- A new writer has been given room for a byte. -/
theorem Writer.withCapacity_capacity_le (capacity : Nat) :
    Delivers (Writer.withCapacity capacity) fun w => w.capacity ≤ max capacity 10 := by
  refine (Buffer.withCapacity_new capacity).bind ?_
  rintro b ⟨hfits, hposition, hcapacity⟩
  have hdoubles : Moves (Buffer.Doubles 0) (Buffer.ensure 1) := Buffer.ensure_doubles (Nat.le_refl 1)
  refine Writer.ofBuffer_delivers_of (((Buffer.ensureOne_achieves hfits).moved hdoubles).mono ?_)
  rintro _ b' ⟨⟨-, hsame, -, -⟩, hdouble⟩
  have hle := hdouble.capacity_le
  change b'.capacity ≤ _
  omega

end Sparse

/-- Make calls on a new standard writer, and go on after refused moves: of each call the furthest position
that the writer was at, and the capacity after it. -/
def standardReach (capacity : Nat) (calls : List Standard.Writer.Call) :
    Except Fault (List (Nat × Nat) × Standard.Writer) :=
  runOn (Standard.Writer.withCapacity capacity) (traced Standard.Writer.capacity
    (calls.map (reaching Standard.Writer.Call.run (fun _ w => w.position) Standard.Writer.position)))

/-- Carry out operations on a new sparse writer, and go on after refused moves: of each operation the
furthest byte that the cursor was at, and the capacity after it. -/
def sparseReach (capacity : Nat) (operations : List Sparse.Operation) :
    Except Fault (List (Nat × Nat) × Sparse.Writer) :=
  runOn (Sparse.Writer.withCapacity capacity) (traced Sparse.Writer.capacity
    (operations.map (reaching Sparse.Operation.run Sparse.Operation.passes fun w => w.cursor.byte)))

theorem standardReach_delivers (capacity : Nat) (calls : List Standard.Writer.Call) :
    Delivers (standardReach capacity calls) fun result =>
      result.2.capacity ≤ max capacity (max 10 (2 * (furthest result.1 + 4))) ∧
        ∀ x ∈ result.1, x.2 ≤ max capacity (max 10 (2 * (furthest result.1 + 4))) := by
  have hrun : ∀ w : Standard.Writer,
      w.buffer.Fits ∧ w.buffer.position = 0 ∧ w.buffer.capacity = capacity →
      Achieves (traced Standard.Writer.capacity (calls.map
        (reaching Standard.Writer.Call.run (fun _ w => w.position) Standard.Writer.position))) w
        fun shown w' => w'.capacity ≤ max capacity (max 10 (2 * (furthest shown + 4))) ∧
          ∀ x ∈ shown, x.2 ≤ max capacity (max 10 (2 * (furthest shown + 4))) := by
    rintro w ⟨-, -, rfl⟩
    exact traced_reaching_achieves Standard.Writer.Call.run _ Standard.Writer.position
      Standard.Writer.capacity Standard.Writer.capacity_run_le calls w
  exact (Standard.Writer.withCapacity_new capacity).runOn hrun

theorem sparseReach_delivers (capacity : Nat) (operations : List Sparse.Operation) :
    Delivers (sparseReach capacity operations) fun result =>
      result.2.capacity ≤ max capacity (max 10 (2 * furthest result.1)) ∧
        ∀ x ∈ result.1, x.2 ≤ max capacity (max 10 (2 * furthest result.1)) := by
  have hrun : ∀ w : Sparse.Writer, w.capacity ≤ max capacity 10 →
      Achieves (traced Sparse.Writer.capacity (operations.map
        (reaching Sparse.Operation.run Sparse.Operation.passes fun w => w.cursor.byte))) w
        fun shown w' => w'.capacity ≤ max capacity (max 10 (2 * furthest shown)) ∧
          ∀ x ∈ shown, x.2 ≤ max capacity (max 10 (2 * furthest shown)) := by
    intro w hw
    refine (traced_reaching_achieves Sparse.Operation.run Sparse.Operation.passes
      (fun w => w.cursor.byte) Sparse.Writer.capacity Sparse.Operation.capacity_run_le operations
        w).mono fun shown w' ⟨hlast, hshown⟩ => ⟨by omega, fun x hx => ?_⟩
    have hle := hshown x hx
    omega
  exact (Sparse.Writer.withCapacity_capacity_le capacity).runOn hrun

/-- From wherever calls have led, and unless an allocation is refused, a word makes a writer grow at most
once.  In the standard format it grows where the longest word would not fit, before anything is appended,
and in the sparse format where the cursor comes to the end of the array.  Along a whole run the capacity
is bounded by what it was at first, by the floor, and by twice the furthest byte that the cursor was at;
for the standard format the four bytes count that a word may leave unused. -/
theorem capacity_follows_cursor (capacity : Nat) :
    (∀ calls word, AllocationGranted (around (Standard.Writer.withCapacity capacity)
        Standard.Writer.Call.run calls (writeWord word)) →
      ∃ w w', around (Standard.Writer.withCapacity capacity) Standard.Writer.Call.run calls
          (writeWord word) = .ok (w, w') ∧
        Buffer.ensure 5 w.buffer = .ok () w.buffer.roomy ∧
        Buffer.appendBytes (Varint.encode word) w.buffer.roomy = .ok () w'.buffer ∧
        w'.capacity = w.buffer.roomy.capacity ∧
        w'.capacity = if w.position + 5 ≤ w.capacity then w.capacity else max (2 * w.capacity) 10) ∧
    (∀ operations word, AllocationGranted (around (Sparse.Writer.withCapacity capacity)
        Sparse.Operation.run operations (writeWord word)) →
      ∃ w w', around (Sparse.Writer.withCapacity capacity) Sparse.Operation.run operations
          (writeWord word) = .ok (w, w') ∧
        w'.capacity =
          if w'.cursor.byte < w.capacity then w.capacity else max (2 * w.capacity) 10) ∧
    (∀ operations, AllocationGranted (around (Sparse.Writer.withCapacity capacity)
        Sparse.Operation.run operations Sparse.Writer.writeZero) →
      ∃ w w', around (Sparse.Writer.withCapacity capacity) Sparse.Operation.run operations
          Sparse.Writer.writeZero = .ok (w, w') ∧
        w'.capacity =
          if w'.cursor.byte < w.capacity then w.capacity else max (2 * w.capacity) 10) ∧
    (∀ calls, AllocationGranted (standardReach capacity calls) →
      ∃ shown w, standardReach capacity calls = .ok (shown, w) ∧
        w.capacity ≤ max capacity (max 10 (2 * (furthest shown + 4))) ∧
        ∀ x ∈ shown, x.2 ≤ max capacity (max 10 (2 * (furthest shown + 4)))) ∧
    ∀ operations, AllocationGranted (sparseReach capacity operations) →
      ∃ shown w, sparseReach capacity operations = .ok (shown, w) ∧
        w.capacity ≤ max capacity (max 10 (2 * furthest shown)) ∧
        ∀ x ∈ shown, x.2 ≤ max capacity (max 10 (2 * furthest shown)) := by
  have hsparse : ∀ operations word, AllocationGranted (around (Sparse.Writer.withCapacity capacity)
        Sparse.Operation.run operations (writeWord word)) →
      ∃ w w', around (Sparse.Writer.withCapacity capacity) Sparse.Operation.run operations
          (writeWord word) = .ok (w, w') ∧
        w'.capacity =
          if w'.cursor.byte < w.capacity then w.capacity else max (2 * w.capacity) 10 := by
    intro operations word hgranted
    obtain ⟨⟨w, w'⟩, hok, -, hcapacity⟩ := (Sparse.Operation.around_delivers capacity operations
      fun w => Sparse.Writer.writeWord_grows_once word).exists_ok hgranted
    exact ⟨w, w', hok, hcapacity⟩
  refine ⟨fun calls word hgranted => ?_, hsparse, fun operations => ?_, fun calls hgranted => ?_,
    fun operations hgranted => ?_⟩
  · have hword : ∀ w : Standard.Writer, w.buffer.Fits → Achieves (writeWord word) w fun _ w' =>
        Buffer.ensure 5 w.buffer = .ok () w.buffer.roomy ∧
          Buffer.appendBytes (Varint.encode word) w.buffer.roomy = .ok () w'.buffer ∧
          w'.buffer.capacity = w.buffer.roomy.capacity :=
      fun w hw => Standard.Writer.onBuffer_achieves (Varint.write_roomy word hw)
    obtain ⟨⟨w, w'⟩, hok, -, hensure, happend, hcapacity⟩ :=
      (Standard.Writer.around_delivers capacity calls hword).exists_ok hgranted
    exact ⟨w, w', hok, hensure, happend, hcapacity, hcapacity.trans w.buffer.roomy_capacity⟩
  · rw [← Sparse.Writer.writeWord_zero]
    exact hsparse operations 0
  · obtain ⟨⟨shown, w⟩, hok, hlast, hshown⟩ := (standardReach_delivers capacity calls).exists_ok hgranted
    exact ⟨shown, w, hok, hlast, hshown⟩
  · obtain ⟨⟨shown, w⟩, hok, hlast, hshown⟩ :=
      (sparseReach_delivers capacity operations).exists_ok hgranted
    exact ⟨shown, w, hok, hlast, hshown⟩

/-- The longest word at the end of an array of four bytes, which the floor makes large enough for it, and
on both sides of the end of a byte; a zero that is the last bit of an array; a word before which room is
made that it does not use; and a move that aligns at the end of an array, which grows, and leads back from
there. -/
theorem capacity_follows_cursor_when_tight :
    (∃ w w', around (Standard.Writer.withCapacity 4) Standard.Writer.Call.run [.setPosition 4]
        (writeWord 0xFFFFFFFF) = .ok (w, w') ∧ w'.capacity = 10) ∧
    (∃ w w', around (Sparse.Writer.withCapacity 4) Sparse.Operation.run
        [.call (.setPosition 3), .call .zero] (writeWord 0xFFFFFFFF) = .ok (w, w') ∧
      w'.capacity = 10) ∧
    (∃ w w', around (Sparse.Writer.withCapacity 6) Sparse.Operation.run
        (.call (.setPosition 5) :: List.replicate 7 (.call .zero)) Sparse.Writer.writeZero =
          .ok (w, w') ∧ w'.capacity = 12) ∧
    (∃ shown w, standardReach 6 [.setPosition 7, .setPosition 2, .item (.word 0)] = .ok (shown, w) ∧
      furthest shown = 3 ∧ w.capacity ≤ 14) ∧
    ∃ shown w, sparseReach 10 [.call (.setPosition 9), .call .zero, .call (.setPosition 0)] =
        .ok (shown, w) ∧ furthest shown = 10 ∧ w.capacity ≤ 20 := by
  refine ⟨?_, ?_, ?_, ?_, ?_⟩
  · obtain ⟨w, w', hrun, -, -, -, hcapacity⟩ :=
      (capacity_follows_cursor 4).1 [.setPosition 4] 0xFFFFFFFF (by decide +kernel)
    have hbefore : (w.position, w.capacity) = (4, 4) :=
      of_toOption_map (fun x => (x.1.position, x.1.capacity)) hrun (by decide +kernel)
    obtain ⟨hposition, hfirst⟩ := Prod.mk.inj hbefore
    rw [hposition, hfirst] at hcapacity
    exact ⟨w, w', hrun, hcapacity⟩
  · obtain ⟨w, w', hrun, hcapacity⟩ := (capacity_follows_cursor 4).2.1
      [.call (.setPosition 3), .call .zero] 0xFFFFFFFF (by decide +kernel)
    have hbytes : (w'.cursor.byte, w.capacity) = (8, 4) :=
      of_toOption_map (fun x => (x.2.cursor.byte, x.1.capacity)) hrun (by decide +kernel)
    obtain ⟨hbyte, hfirst⟩ := Prod.mk.inj hbytes
    rw [hbyte, hfirst] at hcapacity
    exact ⟨w, w', hrun, hcapacity⟩
  · obtain ⟨w, w', hrun, hcapacity⟩ := (capacity_follows_cursor 6).2.2.1
      (.call (.setPosition 5) :: List.replicate 7 (.call .zero)) (by decide +kernel)
    have hbytes : (w'.cursor.byte, w.capacity) = (6, 6) :=
      of_toOption_map (fun x => (x.2.cursor.byte, x.1.capacity)) hrun (by decide +kernel)
    obtain ⟨hbyte, hfirst⟩ := Prod.mk.inj hbytes
    rw [hbyte, hfirst] at hcapacity
    exact ⟨w, w', hrun, hcapacity⟩
  · obtain ⟨shown, w, hrun, hlast, -⟩ := (capacity_follows_cursor 6).2.2.2.1
      [.setPosition 7, .setPosition 2, .item (.word 0)] (by decide +kernel)
    have hfurthest : furthest shown = 3 :=
      of_toOption_map (fun x => furthest x.1) hrun (by decide +kernel)
    rw [hfurthest] at hlast
    exact ⟨shown, w, hrun, hfurthest, hlast⟩
  · obtain ⟨shown, w, hrun, hlast, -⟩ := (capacity_follows_cursor 10).2.2.2.2
      [.call (.setPosition 9), .call .zero, .call (.setPosition 0)] (by decide +kernel)
    have hfurthest : furthest shown = 10 :=
      of_toOption_map (fun x => furthest x.1) hrun (by decide +kernel)
    rw [hfurthest] at hlast
    exact ⟨shown, w, hrun, hfurthest, hlast⟩

end WordStream
