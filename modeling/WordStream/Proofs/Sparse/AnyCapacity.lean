import Mathlib.Data.List.Forall2
import WordStream.Proofs.Buffer.Memory
import WordStream.Proofs.Sparse.Invariant

/-!
# Sparse output at any capacity

Two writers that began with different capacities grow at different moments, and a growth keeps no byte
behind the position.  Yet they show the same after every call, wherever they are moved, also over bytes
that were left over or never written: every growth finds the position at the end of the array, where
there is nothing behind it to lose.
-/

namespace WordStream.Sparse

namespace Writer

/-- Two writers that differ in nothing but their capacity. -/
structure Twins (w w' : Writer) : Prop where
  buffer : w.buffer.Twins w'.buffer
  bit : w'.bit = w.bit

/-! ## Steps of two writers -/

theorem onBuffer_eq_ok {α : Type} {act : WriteM Buffer α} {w v : Writer} {a : α}
    (h : onBuffer act w = .ok a v) : act w.buffer = .ok a v.buffer ∧ v.bit = w.bit := by
  simp only [onBuffer] at h
  split at h
  · next hact =>
      cases h
      exact ⟨hact, rfl⟩
  · cases h

theorem onBuffer_together {α : Type} {act : WriteM Buffer α}
    (h : Together Buffer.Twins act act) : Together Twins (onBuffer act) (onBuffer act) := by
  intro w w' a a' v v' hw hrun hrun'
  obtain ⟨hact, hbit⟩ := onBuffer_eq_ok hrun
  obtain ⟨hact', hbit'⟩ := onBuffer_eq_ok hrun'
  obtain ⟨rfl, hbuffer⟩ := h _ _ a a' _ _ hw.buffer hact hact'
  exact ⟨rfl, hbuffer, by rw [hbit, hbit', hw.bit]⟩

theorem setBit_together (bit : Offset) : Together Twins (setBit bit) (setBit bit) := by
  intro w w' _ _ v v' hw hrun hrun'
  cases hrun
  cases hrun'
  exact ⟨rfl, hw.buffer, rfl⟩

theorem startByte_together : Together Twins startByte startByte :=
  (onBuffer_together Buffer.advance_together).bind fun _ =>
    (onBuffer_together (Buffer.modifyCurrent_together _)).bind fun _ => setBit_together _

theorem align_together : Together Twins align align := by
  refine Together.bind_get fun w w' hw => ?_
  rw [hw.bit]
  refine Together.bind_if startByte_together fun _ => ?_
  refine Together.bind_get fun v v' hv => ?_
  rw [hv.buffer.position]
  exact .pure _

theorem setPosition_together (position : Nat) :
    Together Twins (setPosition position) (setPosition position) :=
  (align_together.map fun _ => ()).bind fun _ =>
    (onBuffer_together (Buffer.setPosition_together position)).bind fun _ =>
      onBuffer_together Buffer.ensureOne_steady.together

theorem writeZero_together : Together Twins writeZero writeZero := by
  refine Together.bind_get fun w w' hw => ?_
  rw [hw.bit]
  refine Together.bind_if (onBuffer_together (Buffer.modifyCurrent_together _)) fun _ => ?_
  split
  · exact startByte_together
  · exact setBit_together _

/-- What a logical byte leaves over for the byte after the position. -/
theorem spill_together (bit : Offset) (byte : UInt8) :
    Together Twins
      (onBuffer Buffer.advance >>= fun _ => if bit.val ≠ 0 then
        onBuffer (Buffer.storeCurrent (byte <<< UInt8.ofNat (8 - bit.val))) else pure ())
      (onBuffer Buffer.advance >>= fun _ => if bit.val ≠ 0 then
        onBuffer (Buffer.storeCurrent (byte <<< UInt8.ofNat (8 - bit.val))) else pure ()) := by
  refine (onBuffer_together Buffer.advance_together).bind fun _ => ?_
  split
  · exact onBuffer_together (Buffer.modifyCurrent_together _)
  · exact .pure ()

theorem writeLogicalByte_together (byte : UInt8) :
    Together Twins (writeLogicalByte byte) (writeLogicalByte byte) := by
  refine Together.bind_get fun w w' hw => ?_
  rw [hw.bit]
  by_cases hbit : w.bit.val = 0
  · rw [if_pos hbit]
    exact (onBuffer_together (Buffer.modifyCurrent_together _)).bind fun _ => spill_together _ _
  · rw [if_neg hbit]
    exact (onBuffer_together (Buffer.modifyCurrent_together _)).bind fun _ => spill_together _ _

theorem writeWord_together (word : UInt32) :
    Together Twins (writeWord word : WriteM Writer Unit) (writeWord word) := by
  change Together Twins (if word = 0 then writeZero else (logicalBytes word).forM writeLogicalByte)
    (if word = 0 then writeZero else (logicalBytes word).forM writeLogicalByte)
  split
  · exact writeZero_together
  · exact .forM writeLogicalByte_together _

/-! ## What two writers show -/

/-- Writers that differ in nothing but their capacity show the same. -/
theorem Twins.view_eq {w w' : Writer} (h : Twins w w') (hw : w.Sound) (hw' : w'.Sound) :
    w'.view = w.view := by
  have hlength : w'.length = w.length := by
    rw [length, length, h.buffer.position, h.bit]
  have hcursor : w'.cursor = w.cursor := by
    rw [cursor, cursor, h.buffer.position, h.bit]
  have hbytes : w'.toBytes.toList = w.toBytes.toList := by
    rw [toBytes, toBytes, Buffer.toList_firstBytes (length_le_capacity hw'),
      Buffer.toList_firstBytes (length_le_capacity hw), hlength, h.buffer.memory]
  rw [view, view, hlength, hcursor, hbytes]

end Writer

namespace Call

/-- Whether a call is a move. -/
def isMove : Call → Bool
  | setPosition _ => true
  | _ => false

theorem run_together (call : Call) : Together Writer.Twins call.run call.run := by
  cases call with
  | word w => exact (Writer.writeWord_together w).bind fun _ => .pure none
  | zero => exact Writer.writeZero_together.bind fun _ => .pure none
  | align => exact Writer.align_together.bind fun position => .pure (some position)
  | setPosition position => exact (Writer.setPosition_together position).bind fun _ => .pure none

theorem MayTell.isOk {call : Call} {told : Except Fault (Option Nat)} {w : Writer}
    (h : call.MayTell told w) (hmove : call.isMove = false) : told.isOk = true := by
  rcases h with hok | ⟨position, rfl, -⟩
  · exact hok
  · cases hmove

end Call

namespace Writer

theorem withCapacity_memory {capacity : Nat} {w : Writer} (h : withCapacity capacity = .ok w) :
    w.buffer.position = 0 ∧ (w.buffer.memory = fun _ => 0) ∧ w.bit = .start := by
  unfold withCapacity at h
  cases hb : Buffer.withCapacity capacity with
  | error fault =>
      rw [hb] at h
      cases h
  | ok b =>
      rw [hb] at h
      change ofBuffer b = .ok w at h
      unfold ofBuffer at h
      split at h
      · next b' hrun =>
          cases h
          obtain ⟨hposition, hmemory⟩ := Buffer.withCapacity_memory hb
          have htwins := Buffer.ensureOne_steady b b' hrun
          exact ⟨htwins.position.trans hposition, htwins.memory.trans hmemory, rfl⟩
      · cases h

/-- New writers differ in nothing but their capacity. -/
theorem withCapacity_twins {capacity capacity' : Nat} {w w' : Writer}
    (h : withCapacity capacity = .ok w) (h' : withCapacity capacity' = .ok w') : Twins w w' := by
  obtain ⟨hposition, hmemory, hbit⟩ := withCapacity_memory h
  obtain ⟨hposition', hmemory', hbit'⟩ := withCapacity_memory h'
  exact ⟨⟨by rw [hposition, hposition'], by rw [hmemory, hmemory']⟩, by rw [hbit, hbit']⟩

end Writer

/-! ## Runs -/

/-- What a writer shows, with its whole array. -/
def Writer.exposed (w : Writer) : View × Array UInt8 := (w.view, w.buffer.bytes)

/-- What a call has given, or why it was refused, and what is shown of the writer after it. -/
abbrev Shown := Except Fault (Option Nat) × View × Array UInt8

/-- Run calls on a new writer; tell of each what it gives and what is shown after it. -/
def trace (capacity : Nat) (calls : List Call) : Except Fault (List Shown × Writer) :=
  runOn (Writer.withCapacity capacity)
    (traced Writer.exposed (calls.map fun call => caught call.run))

/-- No move of a run is refused. -/
def MovesMade (calls : List Call) (result : Except Fault (List Shown × Writer)) : Prop :=
  match result with
  | .ok (shown, _) => ∀ x ∈ calls.zip shown, x.1.isMove = true → x.2.1.isOk = true
  | .error _ => True

instance (calls : List Call) (result : Except Fault (List Shown × Writer)) :
    Decidable (MovesMade calls result) :=
  match result with
  | .ok (shown, _) => inferInstanceAs
      (Decidable (∀ x ∈ calls.zip shown, x.1.isMove = true → x.2.1.isOk = true))
  | .error _ => .isTrue trivial

/-- Two arrays agree where both have a byte, and each is zero where only it has one. -/
structure Agree (xs ys : Array UInt8) : Prop where
  both : ∀ i (h : i < xs.size) (h' : i < ys.size), xs[i] = ys[i]
  left : ∀ i (h : i < xs.size), ys.size ≤ i → xs[i] = 0
  right : ∀ i (h : i < ys.size), xs.size ≤ i → ys[i] = 0

/-- Two calls have given the same, and the writers show the same after them. -/
structure Alike (x y : Shown) : Prop where
  result : x.1 = y.1
  view : x.2.1 = y.2.1
  array : Agree x.2.2 y.2.2

theorem Agree.of_twins {b b' : Buffer} (h : b.Twins b') : Agree b.bytes b'.bytes := by
  have hbyte : ∀ {b : Buffer} {i : Nat} (hi : i < b.bytes.size), b.bytes[i] = b.memory i := by
    intro b i hi
    rw [Buffer.memory_eq, Array.getElem?_eq_getElem hi, Option.getD_some]
  constructor
  · intro i hi hi'
    rw [hbyte hi, hbyte hi', h.memory]
  · intro i hi hle
    rw [hbyte hi, ← h.memory, Buffer.memory_of_le hle]
  · intro i hi hle
    rw [hbyte hi, h.memory, Buffer.memory_of_le hle]

namespace Call

/-- A run of calls ends, unless it is refused an allocation, and in it only moves are refused. -/
theorem traced_caught_achieves (calls : List Call) {w : Writer} (h : w.Sound) :
    Achieves (traced Writer.exposed (calls.map fun call => caught call.run)) w fun shown _ =>
      List.Forall₂ (fun call x => call.isMove = false → x.1.isOk = true) calls shown := by
  refine (Achieves.traced_forall₂ (fun call w hw => ?_) calls h).mono fun _ _ hpost => hpost.2
  exact (caught_run_achieves call hw).mono fun _ _ ⟨hsound, htold⟩ => ⟨hsound, htold.isOk⟩

/-- From writers that differ in nothing but their capacity, runs in which no call is refused show the
same after every call. -/
theorem traced_alike (calls : List Call) {w w' v v' : Writer} (hw : w.Sound) (hw' : w'.Sound)
    (htwins : Writer.Twins w w') {shown shown' : List Shown}
    (hrun : traced Writer.exposed (calls.map fun call => caught call.run) w = .ok shown v)
    (hrun' : traced Writer.exposed (calls.map fun call => caught call.run) w' = .ok shown' v')
    (hmade : ∀ x ∈ shown, x.1.isOk = true) (hmade' : ∀ x ∈ shown', x.1.isOk = true) :
    List.Forall₂ Alike shown shown' := by
  -- Induction on the calls: the writers differ in nothing else after a call, if they did not before.
  induction calls generalizing w w' shown shown' with
  | nil =>
      cases hrun
      cases hrun'
      exact .nil
  | cons call calls ih =>
      obtain ⟨told, u, rest, hcall, hrest, rfl⟩ := exists_of_traced_cons hrun
      obtain ⟨told', u', rest', hcall', hrest', rfl⟩ := exists_of_traced_cons hrun'
      have hu := ((caught_run_achieves call hw).post_of_ok hcall).1
      have hu' := ((caught_run_achieves call hw').post_of_ok hcall').1
      have hok := hmade _ List.mem_cons_self
      have hok' := hmade' _ List.mem_cons_self
      cases told with
      | error fault => cases hok
      | ok a =>
          cases told' with
          | error fault => cases hok'
          | ok a' =>
              obtain ⟨rfl, hnext⟩ := call.run_together w w' a a' u u' htwins
                (caught_eq_ok.mp hcall) (caught_eq_ok.mp hcall')
              refine .cons ⟨rfl, (hnext.view_eq hu hu').symm, .of_twins hnext.buffer⟩ ?_
              exact ih hu hu' hnext hrest hrest'
                (fun x hx => hmade x (List.mem_cons_of_mem _ hx))
                (fun x hx => hmade' x (List.mem_cons_of_mem _ hx))

end Call

/-- Where only moves are refused and no move is, no call is. -/
theorem isOk_of_moves {calls : List Call} {shown : List Shown}
    (hothers : List.Forall₂ (fun call x => call.isMove = false → x.1.isOk = true) calls shown)
    (hmoves : ∀ x ∈ calls.zip shown, x.1.isMove = true → x.2.1.isOk = true) :
    ∀ x ∈ shown, x.1.isOk = true := by
  induction hothers with
  | nil => simp
  | @cons call x calls shown hother _ ih =>
      rw [List.zip_cons_cons] at hmoves
      intro y hy
      rcases List.mem_cons.mp hy with rfl | hy
      · cases hmove : call.isMove with
        | true => exact hmoves _ List.mem_cons_self hmove
        | false => exact hother hmove
      · exact ih (fun z hz => hmoves z (List.mem_cons_of_mem _ hz)) y hy

/-- A run that is refused no allocation ends; and if no move is refused, then no call is. -/
theorem exists_trace {capacity : Nat} {calls : List Call}
    (hgranted : AllocationGranted (trace capacity calls))
    (hmoves : MovesMade calls (trace capacity calls)) :
    ∃ shown w, trace capacity calls = .ok (shown, w) ∧ shown.length = calls.length ∧
      ∀ x ∈ shown, x.1.isOk = true := by
  have hrun := (Writer.withCapacity_delivers capacity).runOn fun w hw =>
    Call.traced_caught_achieves calls hw.1
  obtain ⟨⟨shown, w⟩, hok, hothers⟩ := hrun.exists_ok hgranted
  change trace capacity calls = .ok (shown, w) at hok
  rw [hok] at hmoves
  exact ⟨shown, w, hok, hothers.length_eq.symm, isOk_of_moves hothers hmoves⟩

/-- Runs of the same calls from two capacities, in which no allocation and no move is refused, end and
show the same after every call: what aligning tells, the bytes and their number, and the place of the
next bit.  Even the arrays agree as far as both reach, and hold zeros where only one does. -/
theorem output_at_any_capacity (capacity capacity' : Nat) (calls : List Call)
    (hgranted : AllocationGranted (trace capacity calls))
    (hgranted' : AllocationGranted (trace capacity' calls))
    (hmoves : MovesMade calls (trace capacity calls))
    (hmoves' : MovesMade calls (trace capacity' calls)) :
    ∃ shown w shown' w', trace capacity calls = .ok (shown, w) ∧
      trace capacity' calls = .ok (shown', w') ∧ shown.length = calls.length ∧
      (∀ x ∈ shown, x.1.isOk = true) ∧ List.Forall₂ Alike shown shown' := by
  obtain ⟨shown, v, hok, hlength, hmade⟩ := exists_trace hgranted hmoves
  obtain ⟨shown', v', hok', -, hmade'⟩ := exists_trace hgranted' hmoves'
  refine ⟨shown, v, shown', v', hok, hok', hlength, hmade, ?_⟩
  obtain ⟨w, hstart, hrun⟩ := exists_of_runOn_ok hok
  obtain ⟨w', hstart', hrun'⟩ := exists_of_runOn_ok hok'
  have hw := Writer.withCapacity_delivers capacity
  have hw' := Writer.withCapacity_delivers capacity'
  rw [hstart] at hw
  rw [hstart'] at hw'
  exact Call.traced_alike calls hw.1 hw'.1 (Writer.withCapacity_twins hstart hstart') hrun hrun' hmade
    hmade'

/-- No capacity and one of 64 bytes; a move back over a word of ones, a move past what is written, and
a move to the end of an array that has to grow for it. -/
theorem output_at_any_capacity_after_moves :
    ∃ shown w shown' w',
      trace 0 [.word 0xFFFFFFFF, .setPosition 2, .zero, .setPosition 7, .word 300, .setPosition 10,
        .zero, .align] = .ok (shown, w) ∧
      trace 64 [.word 0xFFFFFFFF, .setPosition 2, .zero, .setPosition 7, .word 300, .setPosition 10,
        .zero, .align] = .ok (shown', w') ∧
      shown.length = 8 ∧ (∀ x ∈ shown, x.1.isOk = true) ∧ List.Forall₂ Alike shown shown' :=
  output_at_any_capacity 0 64 _ (by decide +kernel) (by decide +kernel) (by decide +kernel)
    (by decide +kernel)

end WordStream.Sparse
