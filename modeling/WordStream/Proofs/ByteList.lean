import WordStream.Proofs.Buffer.Capacity
import WordStream.Proofs.Standard.Motion
import WordStream.Proofs.Stream.Items
import WordStream.Proofs.Stream.Runs

/-!
# Buffers and standard writers refine a list of bytes

Every call is specified by its effect on a list of bytes that knows no capacity and nothing left over:
bytes are appended to the list, and a move back cuts it.  After every call of a run a buffer, or a
writer of the standard format, shows the specified list and nothing else, however often and whenever it
had to grow on the way.
-/

namespace WordStream

/-- What calls are to do to a list of bytes. -/
structure ListSpec (ι : Type) where
  -- What a call makes of the list.
  apply : ι → List UInt8 → List UInt8
  -- What a call tells about itself: that it was made, or why it was refused.
  tells : ι → List UInt8 → Except Fault Unit
  -- Whether the call stays inside the list: a move leads no further than its end.
  StaysInside : ι → List UInt8 → Prop

namespace ListSpec

variable {ι : Type} (spec : ListSpec ι)

/-- Every call of a run stays inside the list that the calls before it have left. -/
def AllStayInside : List ι → List UInt8 → Prop
  | [], _ => True
  | call :: calls, bytes =>
      spec.StaysInside call bytes ∧ AllStayInside calls (spec.apply call bytes)

instance decidableAllStayInside [∀ call bytes, Decidable (spec.StaysInside call bytes)] :
    (calls : List ι) → (bytes : List UInt8) → Decidable (spec.AllStayInside calls bytes)
  | [], _ => .isTrue trivial
  | call :: calls, bytes =>
      have := decidableAllStayInside calls (spec.apply call bytes)
      inferInstanceAs (Decidable (spec.StaysInside call bytes ∧
        spec.AllStayInside calls (spec.apply call bytes)))

/-- What every call of a run is to tell, and the list that it is to leave. -/
def expected : List ι → List UInt8 → List (Except Fault Unit × List UInt8)
  | [], _ => []
  | call :: calls, bytes =>
      (spec.tells call bytes, spec.apply call bytes) :: expected calls (spec.apply call bytes)

end ListSpec

/-- What is shown of a buffer, or of a writer on it. -/
structure Snapshot where
  bytes : List UInt8
  position : Nat
  capacity : Nat
  deriving DecidableEq

def Buffer.snapshot (b : Buffer) : Snapshot := ⟨b.written.toList, b.position, b.capacity⟩

/-- What the calls of a run tell, and the snapshots after each, keep to the list: they are as it is
specified, the position is the length of the list and inside the array, and the capacity, which was
`capacity` before, never decreases. -/
structure Tracks {ι : Type} (spec : ListSpec ι) (calls : List ι) (bytes : List UInt8)
    (capacity : Nat) (shown : List (Except Fault Unit × Snapshot)) : Prop where
  expected : shown.map (fun x => (x.1, x.2.bytes)) = spec.expected calls bytes
  position : ∀ x ∈ shown, x.2.position = x.2.bytes.length ∧ x.2.position ≤ x.2.capacity
  capacity : (capacity :: shown.map fun x => x.2.capacity).Pairwise (· ≤ ·)

/-- All of a snapshot but the capacity. -/
def Snapshot.output (snapshot : Snapshot) : List UInt8 × Nat := (snapshot.bytes, snapshot.position)

/-- Runs that keep to the same list show the same after every call, whatever their capacities. -/
theorem Tracks.output_eq {ι : Type} {spec : ListSpec ι} {calls : List ι} {bytes : List UInt8}
    {capacity capacity' : Nat} {shown shown' : List (Except Fault Unit × Snapshot)}
    (h : Tracks spec calls bytes capacity shown) (h' : Tracks spec calls bytes capacity' shown') :
    shown.map (fun x => (x.1, x.2.output)) = shown'.map fun x => (x.1, x.2.output) := by
  -- The position is the length of the bytes, so that the specified part of a snapshot tells it.
  have houtput : ∀ {capacity shown}, Tracks spec calls bytes capacity shown →
      shown.map (fun x => (x.1, x.2.output)) =
        (spec.expected calls bytes).map fun x => (x.1, x.2, x.2.length) := by
    intro capacity shown htracks
    rw [← htracks.expected, List.map_map]
    refine List.map_congr_left fun x hx => ?_
    simp [Snapshot.output, (htracks.position x hx).1]
  rw [houtput h, houtput h']

/-- Each call does to the buffer in a state what it is specified to do to the list. -/
def Refines {ι σ : Type} (spec : ListSpec ι) (buffer : σ → Buffer) (run : ι → WriteM σ Unit) :
    Prop :=
  ∀ call s, (buffer s).Fits → spec.StaysInside call (buffer s).written.toList →
    Achieves (caught (run call)) s fun told s' =>
      told = spec.tells call (buffer s).written.toList ∧ (buffer s').Fits ∧
        (buffer s').written.toList = spec.apply call (buffer s).written.toList ∧
        (buffer s).Widens (buffer s')

namespace Refines

variable {ι σ : Type} {spec : ListSpec ι} {buffer : σ → Buffer} {run : ι → WriteM σ Unit}

/-- A run of calls keeps to the list. -/
theorem traced_achieves (h : Refines spec buffer run) (calls : List ι) {s : σ}
    (hfits : (buffer s).Fits) (hinside : spec.AllStayInside calls (buffer s).written.toList) :
    Achieves (traced (fun s => (buffer s).snapshot) (calls.map fun call => caught (run call))) s
      fun shown _ => Tracks spec calls (buffer s).written.toList (buffer s).capacity shown := by
  -- Induction on the calls: the list that one leaves is the one that the rest starts from.
  induction calls generalizing s with
  | nil => exact Achieves.pure ⟨rfl, by simp, by simp⟩
  | cons call calls ih =>
      refine Achieves.traced_cons ?_
      refine (h call s hfits hinside.1).mono ?_
      rintro told s' ⟨htold, hfits', hwritten, hwidens⟩
      refine (ih hfits' (by rw [hwritten]; exact hinside.2)).mono ?_
      rintro shown s'' ⟨hexpected, hposition, hcapacity⟩
      rw [hwritten] at hexpected
      constructor
      · rw [List.map_cons, hexpected, htold, ListSpec.expected, Buffer.snapshot, hwritten]
      · intro x hx
        rcases List.mem_cons.mp hx with rfl | hx
        · exact ⟨(Buffer.length_written hfits'.position_le).symm, hfits'.position_le⟩
        · exact hposition x hx
      · rw [List.map_cons]
        refine List.pairwise_cons.mpr ⟨?_, hcapacity⟩
        intro capacity hmem
        have hrest := (List.pairwise_cons.mp hcapacity).1
        rcases List.mem_cons.mp hmem with rfl | hmem
        · exact hwidens
        · exact Nat.le_trans hwidens (hrest capacity hmem)

/-- A run of calls on a new state ends, unless it is refused an allocation, and keeps to the list; and
runs from two capacities show the same after every call. -/
theorem exists_tracks (h : Refines spec buffer run) {start : Nat → Except Fault σ}
    (hstart : ∀ capacity, Delivers (start capacity) fun s =>
      (buffer s).Fits ∧ (buffer s).position = 0 ∧ (buffer s).capacity = capacity)
    (capacity : Nat) {calls : List ι} (hinside : spec.AllStayInside calls []) :
    let trace capacity := runOn (start capacity)
      (traced (fun s => (buffer s).snapshot) (calls.map fun call => caught (run call)))
    AllocationGranted (trace capacity) →
      ∃ shown s, trace capacity = .ok (shown, s) ∧ Tracks spec calls [] capacity shown ∧
        ∀ capacity' shown' s', trace capacity' = .ok (shown', s') →
          shown'.map (fun x => (x.1, x.2.output)) = shown.map fun x => (x.1, x.2.output) := by
  intro trace hgranted
  have hdelivers : ∀ capacity, Delivers (trace capacity) fun result =>
      Tracks spec calls [] capacity result.1 := by
    intro capacity
    have hrun := (hstart capacity).runOn fun s ⟨hfits, hposition, hcapacity⟩ => by
      have hnone := Buffer.written_of_position_zero hposition
      have htracks := h.traced_achieves calls hfits (by rw [hnone]; exact hinside)
      rw [hnone, hcapacity] at htracks
      exact htracks
    exact hrun
  obtain ⟨⟨shown, s⟩, hok, htracks⟩ := (hdelivers capacity).exists_ok hgranted
  refine ⟨shown, s, hok, htracks, fun capacity' shown' s' hok' => ?_⟩
  have htracks' := hdelivers capacity'
  rw [hok'] at htracks'
  exact Tracks.output_eq htracks' htracks

end Refines

/-! ## Buffers -/

/-- Bytes that lie in memory, no more than the largest allocation. -/
abbrev Slice := { bytes : List UInt8 // bytes.length ≤ Limits.maxAllocation }

namespace Buffer

/-- The calls on a buffer; a word is one that is written as a varint. -/
inductive Call where
  | byte (x : UInt8)
  | slice (bytes : Slice)
  | ensure (count : Nat)
  | word (w : UInt32)
  | setPosition (position : Nat)
  deriving DecidableEq

namespace Call

/-- Make the call. -/
def run : Call → WriteM Buffer Unit
  | byte x => appendByte x
  | slice bytes => appendBytes bytes.val
  | ensure count => Buffer.ensure count
  | word w => Varint.write w
  | setPosition position => Buffer.setPosition position

/-- The effect of the call on the list. -/
def apply : Call → List UInt8 → List UInt8
  | byte x, bytes => bytes ++ [x]
  | slice more, bytes => bytes ++ more.val
  | ensure _, bytes => bytes
  | word w, bytes => bytes ++ Varint.encode w
  | setPosition position, bytes => bytes.take position

/-- Only a reservation that would end past the last address is refused. -/
def tells : Call → List UInt8 → Except Fault Unit
  | ensure count, bytes =>
      if bytes.length + count < Limits.addressBound then .ok ()
      else .error (.sizeOverflow bytes.length count)
  | _, _ => .ok ()

def StaysInside : Call → List UInt8 → Prop
  | setPosition position, bytes => position ≤ bytes.length
  | _, _ => True

end Call

def listSpec : ListSpec Call := ⟨Call.apply, Call.tells, Call.StaysInside⟩

instance : (call : Call) → (bytes : List UInt8) → Decidable (listSpec.StaysInside call bytes)
  | .byte _, _ => .isTrue trivial
  | .slice _, _ => .isTrue trivial
  | .ensure _, _ => .isTrue trivial
  | .word _, _ => .isTrue trivial
  | .setPosition position, bytes => Nat.decLe position bytes.length

/-- Run calls on a new buffer; tell of each what it tells and take a snapshot after it. -/
def trace (capacity : Nat) (calls : List Call) :
    Except Fault (List (Except Fault Unit × Snapshot) × Buffer) :=
  runOn (withCapacity capacity) (traced snapshot (calls.map fun call => caught call.run))

theorem setPosition_achieves {b : Buffer} (h : b.Fits) {position : Nat}
    (hposition : position ≤ b.written.toList.length) :
    Achieves (setPosition position) b fun _ b' =>
      b'.Fits ∧ b'.written.toList = b.written.toList.take position := by
  rw [length_written h.position_le] at hposition
  have hle := Nat.le_trans hposition h.position_le
  exact Achieves.of_ok (setPosition_ok hle) ⟨h.movedTo hle, movedTo_written hposition⟩

theorem refines_list : Refines listSpec id Call.run := by
  intro call b hfits hinside
  change b.Fits at hfits
  cases call with
  | byte x =>
      refine ((appendByte_achieves x hfits).moved (widens_movesOnSteps.appendByte x)).caught ?_
      rintro _ b' ⟨⟨hfits', hwritten⟩, hwidens⟩
      exact ⟨rfl, hfits', hwritten, hwidens⟩
  | slice bytes =>
      have hroom := hfits.position_add_lt bytes.val.length bytes.property
      refine ((appendBytes_achieves bytes.val hfits hroom).moved (widens_movesOnSteps.appendBytes
        (ensure_widens _))).caught ?_
      rintro _ b' ⟨⟨hfits', hwritten⟩, hwidens⟩
      exact ⟨rfl, hfits', hwritten, hwidens⟩
  | ensure count =>
      have htells : listSpec.tells (.ensure count) b.written.toList =
          if b.position + count < Limits.addressBound then .ok ()
          else .error (.sizeOverflow b.position count) := by
        rw [← length_written hfits.position_le]
        rfl
      by_cases hcount : b.position + count < Limits.addressBound
      · refine ((ensure_achieves count hfits hcount).moved (ensure_widens count)).caught ?_
        rintro _ b' ⟨⟨hfits', -, hwritten, -⟩, hwidens⟩
        rw [if_pos hcount] at htells
        exact ⟨htells.symm, hfits', congrArg Array.toList hwritten, hwidens⟩
      · rw [if_neg hcount] at htells
        exact Achieves.caught_of_error (if_neg hcount) rfl
          ⟨htells.symm, hfits, rfl, Nat.le_refl _⟩
  | word w =>
      refine ((Varint.write_achieves w hfits).moved (widens_movesOnSteps.writeVarint
        (fun count _ => ensure_widens count) w)).caught ?_
      rintro _ b' ⟨⟨hfits', hwritten⟩, hwidens⟩
      exact ⟨rfl, hfits', hwritten, hwidens⟩
  | setPosition position =>
      refine ((setPosition_achieves hfits hinside).moved (setPosition_widens position)).caught ?_
      rintro _ b' ⟨⟨hfits', hwritten⟩, hwidens⟩
      exact ⟨rfl, hfits', hwritten, hwidens⟩

theorem withCapacity_capacity {capacity : Nat} {b : Buffer} (h : withCapacity capacity = .ok b) :
    b.capacity = capacity := by
  unfold withCapacity at h
  split at h
  · cases h
    simp [Buffer.capacity]
  · cases h

/-- A new buffer has nothing written and the capacity that was asked for. -/
theorem withCapacity_new (capacity : Nat) :
    Delivers (withCapacity capacity) fun b =>
      b.Fits ∧ b.position = 0 ∧ b.capacity = capacity :=
  (withCapacity_delivers capacity).mono_of_ok fun _ hok ⟨hfits, hposition⟩ =>
    ⟨hfits, hposition, withCapacity_capacity hok⟩

end Buffer

/-! ## Standard writers -/

namespace Standard.Writer

/-- The calls on a writer. -/
inductive Call where
  | item (item : Item)
  | setPosition (position : Nat)
  deriving DecidableEq

namespace Call

/-- Make the call. -/
def run : Call → WriteM Writer Unit
  | item i => i.write
  | setPosition position => Writer.setPosition position

/-- The effect of the call on the list. -/
def apply : Call → List UInt8 → List UInt8
  | item i, bytes => bytes ++ i.spelled spelling
  | setPosition position, bytes => bytes.take position

def StaysInside : Call → List UInt8 → Prop
  | item _, _ => True
  | setPosition position, bytes => position ≤ bytes.length

end Call

/-- No call is refused. -/
def listSpec : ListSpec Call := ⟨Call.apply, fun _ _ => .ok (), Call.StaysInside⟩

instance : (call : Call) → (bytes : List UInt8) → Decidable (listSpec.StaysInside call bytes)
  | .item _, _ => .isTrue trivial
  | .setPosition position, bytes => Nat.decLe position bytes.length

/-- What a writer shows. -/
def snapshot (w : Writer) : Snapshot := ⟨w.toBytes.toList, w.length, w.capacity⟩

/-- Run calls on a new writer; tell of each what it tells and take a snapshot after it. -/
def trace (capacity : Nat) (calls : List Call) :
    Except Fault (List (Except Fault Unit × Snapshot) × Writer) :=
  runOn (withCapacity capacity) (traced snapshot (calls.map fun call => caught call.run))

/-- The writer of a buffer and the writer of a later one, of at least the same capacity. -/
def Widens (w w' : Writer) : Prop := w.buffer.Widens w'.buffer

theorem writes_widen : MovesOnWrites Widens :=
  movesOnWrites Buffer.widens_movesOnSteps fun count _ => Buffer.ensure_widens count

theorem refines_list : Refines listSpec Writer.buffer Call.run := by
  intro call w hfits hinside
  cases call with
  | item i =>
      have happends : Appends (i.write : WriteM Writer Unit) (i.spelled spelling) := i.appends_write
      refine ((happends w hfits).moved (writes_widen.write i)).caught ?_
      rintro _ w' ⟨⟨hfits', hwritten⟩, hwidens⟩
      exact ⟨rfl, hfits', hwritten, hwidens⟩
  | setPosition position =>
      have hmove : Achieves (setPosition position) w fun _ w' => w'.buffer.Fits ∧
          w'.buffer.written.toList = w.buffer.written.toList.take position :=
        onBuffer_achieves (Buffer.setPosition_achieves hfits hinside)
      refine (hmove.moved (onBuffer_moves (Buffer.setPosition_widens position))).caught ?_
      rintro _ w' ⟨⟨hfits', hwritten⟩, hwidens⟩
      exact ⟨rfl, hfits', hwritten, hwidens⟩

theorem withCapacity_new (capacity : Nat) :
    Delivers (withCapacity capacity) fun w =>
      w.buffer.Fits ∧ w.buffer.position = 0 ∧ w.buffer.capacity = capacity :=
  (Buffer.withCapacity_new capacity).bind fun _ hb => hb

end Standard.Writer

/-- As long as moves lead back and no allocation is refused, a run of calls on a buffer or on a standard
writer ends, whatever its capacity.  After every call it shows the list that starts empty, has what is
written appended to it and is cut by moves, and it shows the same in a run from another capacity. -/
theorem runs_refine_byte_list (capacity : Nat) :
    (∀ calls, Buffer.listSpec.AllStayInside calls [] →
      AllocationGranted (Buffer.trace capacity calls) →
      ∃ shown b, Buffer.trace capacity calls = .ok (shown, b) ∧
        Tracks Buffer.listSpec calls [] capacity shown ∧
        ∀ capacity' shown' b', Buffer.trace capacity' calls = .ok (shown', b') →
          shown'.map (fun x => (x.1, x.2.output)) = shown.map fun x => (x.1, x.2.output)) ∧
    ∀ calls, Standard.Writer.listSpec.AllStayInside calls [] →
      AllocationGranted (Standard.Writer.trace capacity calls) →
      ∃ shown w, Standard.Writer.trace capacity calls = .ok (shown, w) ∧
        Tracks Standard.Writer.listSpec calls [] capacity shown ∧
        ∀ capacity' shown' w', Standard.Writer.trace capacity' calls = .ok (shown', w') →
          shown'.map (fun x => (x.1, x.2.output)) = shown.map fun x => (x.1, x.2.output) := by
  constructor
  · intro calls hinside hgranted
    exact Buffer.refines_list.exists_tracks Buffer.withCapacity_new capacity hinside hgranted
  · intro calls hinside hgranted
    exact Standard.Writer.refines_list.exists_tracks Standard.Writer.withCapacity_new capacity hinside
      hgranted

/-- A buffer of three bytes has to grow before and after a move back, over bytes that are left over, and
refuses a reservation in between; a writer of no capacity is moved back to its start. -/
theorem runs_refine_byte_list_after_moves :
    (∃ shown b, Buffer.trace 3 [.slice ⟨[1, 2, 3], by decide⟩, .byte 4, .setPosition 2,
        .ensure 0xFFFFFFFFFFFFFFFF, .word 300, .ensure 20] = .ok (shown, b) ∧
      shown.map (fun x => (x.1, x.2.bytes)) =
        [(.ok (), [1, 2, 3]), (.ok (), [1, 2, 3, 4]), (.ok (), [1, 2]),
          (.error (.sizeOverflow 2 0xFFFFFFFFFFFFFFFF), [1, 2]), (.ok (), [1, 2, 0xAC, 2]),
          (.ok (), [1, 2, 0xAC, 2])]) ∧
    ∃ shown w, Standard.Writer.trace 0 [.item (.double 0x3FF0000000000000), .item (.bool true),
        .setPosition 0, .item (.long (-1))] = .ok (shown, w) ∧
      shown.map (fun x => (x.1, x.2.bytes)) =
        [(.ok (), [0, 0xFC, 0x1F]), (.ok (), [0, 0xFC, 0x1F, 1]), (.ok (), []),
          (.ok (), [1, 1])] := by
  constructor
  · obtain ⟨shown, b, hrun, htracks, -⟩ := (runs_refine_byte_list 3).1
      [.slice ⟨[1, 2, 3], by decide⟩, .byte 4, .setPosition 2, .ensure 0xFFFFFFFFFFFFFFFF,
        .word 300, .ensure 20] (by decide +kernel) (by decide +kernel)
    refine ⟨shown, b, hrun, htracks.expected.trans ?_⟩
    cbv
  · obtain ⟨shown, w, hrun, htracks, -⟩ := (runs_refine_byte_list 0).2
      [.item (.double 0x3FF0000000000000), .item (.bool true), .setPosition 0, .item (.long (-1))]
      (by decide +kernel) (by decide +kernel)
    refine ⟨shown, w, hrun, htracks.expected.trans ?_⟩
    cbv

end WordStream
