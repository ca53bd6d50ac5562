import WordStream.Proofs.Sparse.Writer
import WordStream.Proofs.Stream.Runs

/-!
# The sparse writer refines a string of bits

Every call of a writer is specified by its effect on a string of bits, which knows no bytes, no
capacity and nothing left over from earlier writes.  After every call of a run, a writer shows the
packing of the specified string and nothing else.
-/

namespace WordStream.Sparse

/-- The calls that shape the output of a writer; typed writes come down to words. -/
inductive Call where
  | word (w : UInt32)
  | zero
  | align
  | setPosition (position : Nat)
  deriving DecidableEq

/-- What a writer shows: its bytes, their number, and the place of the next bit. -/
structure View where
  bytes : List UInt8
  length : Nat
  cursor : Cursor
  deriving DecidableEq

/-- The view of a writer. -/
def Writer.view (w : Writer) : View := ⟨w.toBytes.toList, w.length, w.cursor⟩

/-- A string of bits viewed through its packing: as many bytes as are begun, and the place that the
number of bits comes to. -/
def View.ofBits (bits : List Bool) : View :=
  ⟨Bits.pack bits, (bits.length + 7) / 8, Cursor.atBit bits.length⟩

namespace Call

/-- Make the call; aligning tells a position. -/
def run : Call → WriteM Writer (Option Nat)
  | word w => do
      writeWord w
      return none
  | zero => do
      Writer.writeZero
      return none
  | align => return some (← Writer.align)
  | setPosition position => do
      Writer.setPosition position
      return none

/-- The effect of the call on the string. -/
def apply : Call → List Bool → List Bool
  | word w, bits => bits ++ code w.toNat
  | zero, bits => bits ++ [false]
  | align, bits => Bits.aligned bits
  | setPosition position, bits => (Bits.aligned bits).take (8 * position)

/-- What the call gives: the number of whole bytes after aligning. -/
def returns : Call → List Bool → Option Nat
  | align, bits => some ((Bits.aligned bits).length / 8)
  | _, _ => none

/-- Whether the call stays inside the string: a move leads no further than aligning does. -/
def StaysInside : Call → List Bool → Prop
  | setPosition position, bits => position ≤ (Bits.aligned bits).length / 8
  | _, _ => True

instance : (call : Call) → (bits : List Bool) → Decidable (call.StaysInside bits)
  | word _, _ => .isTrue trivial
  | zero, _ => .isTrue trivial
  | align, _ => .isTrue trivial
  | setPosition position, bits => Nat.decLe position ((Bits.aligned bits).length / 8)

/-- Every call of a run stays inside the string that the calls before it have left. -/
def AllStayInside : List Call → List Bool → Prop
  | [], _ => True
  | call :: calls, bits => call.StaysInside bits ∧ AllStayInside calls (call.apply bits)

instance : (calls : List Call) → (bits : List Bool) → Decidable (AllStayInside calls bits)
  | [], _ => .isTrue trivial
  | call :: calls, bits =>
      have := instDecidableAllStayInside calls (call.apply bits)
      inferInstanceAs (Decidable (call.StaysInside bits ∧ AllStayInside calls (call.apply bits)))

/-- What a run is to give and show after every call. -/
def expected : List Call → List Bool → List (Option Nat × View)
  | [], _ => []
  | call :: calls, bits =>
      (call.returns bits, View.ofBits (call.apply bits)) :: expected calls (call.apply bits)

end Call

theorem Writer.view_eq {w : Writer} (h : w.Sound) : w.view = View.ofBits w.bits := by
  rw [view, View.ofBits, toList_toBytes h, length_eq_bits h, cursor_eq_atBit h]

namespace Call

/-- One call does to the writer what it is specified to do to the string. -/
theorem run_achieves (call : Call) {w : Writer} (h : w.Sound) (hinside : call.StaysInside w.bits) :
    Achieves call.run w fun a w' =>
      w'.Sound ∧ w'.bits = call.apply w.bits ∧ a = call.returns w.bits := by
  cases call with
  | word v =>
      refine (Writer.appends_code v w h).bind ?_
      rintro _ w' ⟨hsound, hbits⟩
      exact Achieves.pure ⟨hsound, hbits, rfl⟩
  | zero =>
      refine (Writer.writeZero_achieves h).bind ?_
      rintro _ w' ⟨hsound, hbits⟩
      exact Achieves.pure ⟨hsound, hbits, rfl⟩
  | align =>
      refine (Writer.align_achieves h).bind ?_
      rintro position w' ⟨hsound, hbit, hbits, hposition⟩
      refine Achieves.pure ⟨hsound, hbits, ?_⟩
      have hbytes : w'.bits.length / 8 = position := by
        rw [Writer.length_bits hsound, Writer.bitPosition_cursor, hposition]
        omega
      rw [returns, ← hbits, hbytes]
  | setPosition position =>
      have hposition : 8 * position ≤ (Bits.aligned w.bits).length := by
        have hle : position ≤ (Bits.aligned w.bits).length / 8 := hinside
        omega
      refine (Writer.setPosition_achieves h hposition).bind ?_
      rintro _ w' ⟨hsound, hbits⟩
      exact Achieves.pure ⟨hsound, hbits, rfl⟩

/-- A run of calls shows the specified string after every call. -/
theorem traced_achieves (calls : List Call) {w : Writer} (h : w.Sound)
    (hinside : AllStayInside calls w.bits) :
    Achieves (traced Writer.view (calls.map run)) w fun shown w' =>
      w'.Sound ∧ shown = expected calls w.bits := by
  -- Induction on the calls: the string that one leaves is the one that the rest starts from.
  induction calls generalizing w with
  | nil => exact Achieves.pure ⟨h, rfl⟩
  | cons call calls ih =>
      refine Achieves.traced_cons ?_
      refine (run_achieves call h hinside.1).mono ?_
      rintro a w' ⟨hsound, hbits, ha⟩
      refine (ih hsound (by rw [hbits]; exact hinside.2)).mono ?_
      rintro shown w'' ⟨hsound', hshown⟩
      refine ⟨hsound', ?_⟩
      rw [expected, ha, hshown, Writer.view_eq hsound, hbits]

end Call

/-- From a new writer, whatever its capacity, a run of calls ends and shows the specified string after
every call. -/
theorem run_shows_bit_string (capacity : Nat) (calls : List Call)
    (hinside : Call.AllStayInside calls [])
    (hgranted : AllocationGranted (runOn (Writer.withCapacity capacity)
      (traced Writer.view (calls.map Call.run)))) :
    ∃ w, runOn (Writer.withCapacity capacity) (traced Writer.view (calls.map Call.run)) =
      .ok (Call.expected calls [], w) := by
  have hrun := (Writer.withCapacity_delivers capacity).runOn fun w ⟨hsound, hbits⟩ => by
    have h := Call.traced_achieves calls hsound (by rw [hbits]; exact hinside)
    rw [hbits] at h
    exact h
  obtain ⟨⟨_, w⟩, hok, -, rfl⟩ := hrun.exists_ok hgranted
  exact ⟨w, hok⟩

/-- A rewind over a word of ones: what is written after it shows none of them. -/
theorem rewind_shows_bit_string :
    ∃ w, runOn (Writer.withCapacity 0) (traced Writer.view
      ([.word 0xFFFFFFFF, .align, .setPosition 1, .zero, .word 1, .align].map Call.run)) =
      .ok ([(none, ⟨[0xFF, 0xFF, 0xFF, 0xFF, 0x1F], 5, Cursor.atBit 40⟩),
        (some 5, ⟨[0xFF, 0xFF, 0xFF, 0xFF, 0x1F], 5, Cursor.atBit 40⟩),
        (none, ⟨[0xFF], 1, Cursor.atBit 8⟩),
        (none, ⟨[0xFF, 0x00], 2, Cursor.atBit 9⟩),
        (none, ⟨[0xFF, 0x40, 0x80], 3, Cursor.atBit 17⟩),
        (some 3, ⟨[0xFF, 0x40, 0x80], 3, Cursor.atBit 24⟩)], w) := by
  obtain ⟨w, hrun⟩ := run_shows_bit_string 0
    [.word 0xFFFFFFFF, .align, .setPosition 1, .zero, .word 1, .align]
    (by decide +kernel) (by decide +kernel)
  refine ⟨w, hrun.trans ?_⟩
  congr 2
  decide +kernel

end WordStream.Sparse
