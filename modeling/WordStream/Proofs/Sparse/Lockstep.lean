import WordStream.Proofs.Sparse.Composition
import WordStream.Proofs.Sparse.Invariant
import WordStream.Proofs.Sparse.Reader
import WordStream.Proofs.Sparse.Steps
import WordStream.Proofs.Stream.Motion
import WordStream.Proofs.Stream.Simulation

/-!
# Writers and readers take the same steps

A writer does not move a cursor: it steps from byte to byte of its buffer, which may have to grow, and
counts the bits of the last one.  Still the place that it shows moves like a cursor, by a bit for a zero and
by a byte for every logical byte, and a reader that reads a word back takes just the steps that the writer
took.
-/

namespace WordStream.Sparse

/-! ## Steps of a writer -/

namespace Writer

/-- The cursor has gone the given steps, and so would a machine cursor at the same place. -/
def Walks (steps : List Step) (w w' : Writer) : Prop :=
  w'.cursor = w.cursor.walk steps ∧
    ∀ m : MachineCursor, m.IsAt w.cursor → (m.walk steps).IsAt w'.cursor

/-- The byte under the cursor of a sound writer has an address. -/
theorem byte_lt {w : Writer} (h : w.Sound) : w.cursor.byte < 2 ^ 64 := by
  have hbound : Limits.maxAllocation < 2 ^ 64 := by decide
  calc w.cursor.byte
    _ < w.buffer.capacity := h.room
    _ ≤ Limits.maxAllocation := h.fits.capacity_le
    _ < 2 ^ 64 := hbound

/-- The cursor goes as many bits as are appended, so steps of as many bits lead to the same place. -/
theorem walks_of_appends {act : WriteM Writer Unit} {symbols : List Bool} {steps : List Step}
    (hact : Appends act symbols) (hwidths : Step.widths steps = symbols.length) {w : Writer}
    (h : w.Sound) :
    Achieves act w fun _ w' => w'.Sound ∧ w'.bits = w.bits ++ symbols ∧ Walks steps w w' := by
  refine (hact w h).mono ?_
  rintro _ w' ⟨hsound, hbits⟩
  change w'.bits = w.bits ++ symbols at hbits
  have hcursor : w'.cursor = w.cursor.walk steps := by
    apply Cursor.eq_of_bitPosition_eq
    rw [Cursor.bitPosition_walk, ← length_bits h, ← length_bits hsound, hbits, List.length_append,
      hwidths]
  refine ⟨hsound, hbits, hcursor, fun m hm => ?_⟩
  rw [hcursor]
  apply hm.walk
  rw [← hcursor]
  exact byte_lt hsound

theorem appends_writeLogicalByte (byte : UInt8) : Appends (writeLogicalByte byte) (Bits.ofByte byte) :=
  fun _ h => writeLogicalByte_achieves h byte

end Writer

/-- The steps over the logical bytes of a word. -/
def byteSteps (word : UInt32) : List Step := List.replicate (logicalBytes word).length .byte

theorem widths_byteSteps {word : UInt32} (h : word ≠ 0) :
    Step.widths (byteSteps word) = (code word.toNat).length := by
  rw [← ofBytes_logicalBytes h, Bits.length_ofBytes, byteSteps, Step.widths_replicate, Nat.mul_comm]
  rfl

/-! ## Steps of a reader -/

/-- A reader that remembers the steps of its cursor. -/
structure StepReader where
  reader : Reader
  steps : List Step
  deriving DecidableEq

namespace StepReader

/-- One step further. -/
def advance (step : Step) (s : StepReader) : StepReader :=
  ⟨{ s.reader with cursor := s.reader.cursor.advance step }, s.steps ++ [step]⟩

def readZero : ReadM StepReader Bool := fun s =>
  match s.reader.flag? with
  | some true => .ok false s
  | some false => .ok true (s.advance .bit)
  | none => .error ⟨.unexpectedEnd, "zero flag"⟩ s

def nextLogicalByte : ReadM StepReader UInt8 := fun s =>
  match s.reader.logicalByte? with
  | some byte => .ok byte (s.advance .byte)
  | none => .error ⟨.unexpectedEnd, "sparse value"⟩ s

instance : WordReader StepReader where
  readWord := wordFrom readZero nextLogicalByte

/-- The reader without its memory. -/
def Forgets (s : StepReader) (r : Reader) : Prop := s.reader = r

theorem readZero_inStep : InStep Forgets Eq readZero Reader.readZero := by
  rintro s _ rfl
  cases hflag : s.reader.flag? with
  | none =>
      have hrun : readZero s = .error ⟨.unexpectedEnd, "zero flag"⟩ s := by
        simp only [readZero, hflag]
      have hrun' : Reader.readZero s.reader = .error ⟨.unexpectedEnd, "zero flag"⟩ s.reader := by
        simp only [Reader.readZero, hflag]
      exact .inr ⟨_, _, s, _, hrun, hrun', rfl, rfl⟩
  | some flag =>
      cases flag with
      | true =>
          have hrun : readZero s = .ok false s := by simp only [readZero, hflag]
          have hrun' : Reader.readZero s.reader = .ok false s.reader := by
            simp only [Reader.readZero, hflag]
          exact .inl ⟨false, s, _, hrun, hrun', rfl⟩
      | false =>
          have hrun : readZero s = .ok true (s.advance .bit) := by simp only [readZero, hflag]
          have hrun' : Reader.readZero s.reader = .ok true (s.advance .bit).reader := by
            simp only [Reader.readZero, hflag]
            rfl
          exact .inl ⟨true, s.advance .bit, _, hrun, hrun', rfl⟩

theorem nextLogicalByte_inStep : InStep Forgets Eq nextLogicalByte Reader.nextLogicalByte := by
  rintro s _ rfl
  cases hbyte : s.reader.logicalByte? with
  | none =>
      have hrun : nextLogicalByte s = .error ⟨.unexpectedEnd, "sparse value"⟩ s := by
        simp only [nextLogicalByte, hbyte]
      have hrun' : Reader.nextLogicalByte s.reader =
          .error ⟨.unexpectedEnd, "sparse value"⟩ s.reader := by
        simp only [Reader.nextLogicalByte, hbyte]
      exact .inr ⟨_, _, s, _, hrun, hrun', rfl, rfl⟩
  | some byte =>
      have hrun : nextLogicalByte s = .ok byte (s.advance .byte) := by
        simp only [nextLogicalByte, hbyte]
      have hrun' : Reader.nextLogicalByte s.reader = .ok byte (s.advance .byte).reader := by
        simp only [Reader.nextLogicalByte, hbyte]
        rfl
      exact .inl ⟨byte, s.advance .byte, _, hrun, hrun', rfl⟩

/-- Apart from what it remembers, the reader reads words like any other. -/
theorem readWord_inStep :
    InStep Forgets Eq (readWord : ReadM StepReader UInt32) (readWord : ReadM Reader UInt32) := by
  have hc : Compositional fun α (act : ReadM StepReader α) (act' : ReadM Reader α) =>
      InStep Forgets Eq act act' := InStep.compositional fun _ => rfl
  exact wordFrom_lawful hc _ _ nextLogicalByte_inStep _ _ readZero_inStep

/-- The cursor has gone the steps that are remembered. -/
def Logs (s s' : StepReader) : Prop :=
  ∃ steps, s'.steps = s.steps ++ steps ∧ s'.reader.cursor = s.reader.cursor.walk steps

theorem logs_stepwise : Stepwise Logs where
  refl s := ⟨[], (List.append_nil _).symm, rfl⟩
  trans := by
    rintro s t u ⟨steps, hsteps, hcursor⟩ ⟨later, hlater, hcursor'⟩
    refine ⟨steps ++ later, ?_, ?_⟩
    · rw [hlater, hsteps, List.append_assoc]
    · rw [hcursor', hcursor, Cursor.walk_append]

theorem logs_advance (step : Step) (s : StepReader) : Logs s (s.advance step) :=
  ⟨[step], rfl, rfl⟩

theorem readZero_logs : Moves Logs readZero := by
  intro s
  unfold readZero
  split
  · exact logs_stepwise.refl s
  · exact logs_advance .bit s
  · exact logs_stepwise.refl s

theorem nextLogicalByte_logs : Moves Logs nextLogicalByte := by
  intro s
  unfold nextLogicalByte
  split
  · exact logs_advance .byte s
  · exact logs_stepwise.refl s

/-- However the read of a word ends, the cursor has gone the steps that are remembered. -/
theorem readWord_logs : Moves Logs (readWord : ReadM StepReader UInt32) :=
  wordFrom_lawful (Moves.compositional logs_stepwise) nextLogicalByte nextLogicalByte
    nextLogicalByte_logs readZero readZero readZero_logs

/-- Only steps over whole bytes are remembered in addition. -/
def LogsBytes (s s' : StepReader) : Prop :=
  ∃ n, s'.steps = s.steps ++ List.replicate n Step.byte

theorem logsBytes_stepwise : Stepwise LogsBytes where
  refl s := ⟨0, (List.append_nil _).symm⟩
  trans := by
    rintro s t u ⟨m, hm⟩ ⟨n, hn⟩
    exact ⟨m + n, by rw [hn, hm, List.append_assoc, List.replicate_append_replicate]⟩

theorem nextLogicalByte_logsBytes : Moves LogsBytes nextLogicalByte := by
  intro s
  unfold nextLogicalByte
  split
  · exact ⟨1, rfl⟩
  · exact logsBytes_stepwise.refl s

theorem readChain_logsBytes (context : String) :
    Moves LogsBytes (readChain nextLogicalByte context) :=
  readChain_lawful (Moves.compositional logsBytes_stepwise) nextLogicalByte nextLogicalByte
    nextLogicalByte_logsBytes context

/-- Over the code of a word other than zero, the reader takes a step for each logical byte, and no other. -/
theorem readWord_of_code {word : UInt32} (hword : word ≠ 0) {s : StepReader} {rest : List Bool}
    (h : unread s.reader = code word.toNat ++ rest) :
    readWord s = .ok word
      ⟨skip (code word.toNat).length s.reader, s.steps ++ byteSteps word⟩ := by
  have hread := Reader.takes_code word s.reader rest h
  rcases readWord_inStep s s.reader rfl with
    ⟨w, t, r, hrun, hrun', hforgets⟩ | ⟨e, e', t, r, hrun, hrun', -, -⟩
  · rw [hread] at hrun'
    cases hrun'
    have hflag : s.reader.flag? = some true := by
      rw [Reader.flag?_eq, h, code_eq_cons hword]
      rfl
    have hzero : readZero s = .ok false s := by
      simp only [readZero, hflag]
    -- The flag is only looked at, so that all steps are taken along the chain.
    have hchain : readWord s = readChain nextLogicalByte "sparse value" s := bind_of_ok hzero
    obtain ⟨steps, hsteps, hcursor⟩ := readWord_logs s
    obtain ⟨n, hn⟩ := readChain_logsBytes "sparse value" s
    rw [hrun] at hsteps hcursor
    rw [← hchain, hrun] at hn
    obtain rfl : steps = List.replicate n .byte := List.append_cancel_left (hsteps.symm.trans hn)
    -- How many steps they are is told by the place that is reached.
    have hplace : s.reader.cursor.bitPosition + (code word.toNat).length =
        s.reader.cursor.bitPosition + 8 * n := by
      change t.reader.cursor = _ at hcursor
      change t.reader = _ at hforgets
      have hposition := congrArg Cursor.bitPosition hcursor
      rw [hforgets, Cursor.bitPosition_walk, Step.widths_replicate, Nat.mul_comm] at hposition
      rw [← Cursor.bitPosition_atBit (_ + (code word.toNat).length)]
      exact hposition
    have hcount : n = (logicalBytes word).length := by
      rw [← widths_byteSteps hword, byteSteps, Step.widths_replicate, Step.width] at hplace
      omega
    subst hcount
    rw [hrun]
    cases t
    cases hforgets
    cases hsteps
    rfl
  · rw [hread] at hrun'
    cases hrun'

end StepReader

/-! ## In step -/

/-- What a writer has appended as a word is taken by a reader at the place where the writer was, in steps
over the logical bytes, and the reader ends where the writer does. -/
theorem readWord_of_appended {word : UInt32} (hword : word ≠ 0) {w w' : Writer} (h : w.Sound)
    (h' : w'.Sound) (happended : w'.bits = w.bits ++ code word.toNat) {bytes : Array UInt8}
    (hbytes : w'.bits <+: Bits.ofBytes bytes.toList) :
    (readWord : ReadM Reader UInt32) ⟨bytes, w.cursor⟩ = .ok word ⟨bytes, w'.cursor⟩ ∧
      (readWord : ReadM StepReader UInt32) ⟨⟨bytes, w.cursor⟩, []⟩ =
        .ok word ⟨⟨bytes, w'.cursor⟩, byteSteps word⟩ := by
  obtain ⟨rest, hrest⟩ := hbytes
  have hunread : unread (Reader.mk bytes w.cursor) = code word.toNat ++ rest := by
    change (Bits.ofBytes bytes.toList).drop w.cursor.bitPosition = _
    rw [← hrest, happended, List.append_assoc, ← Writer.length_bits h, List.drop_left]
  have hcursor : Cursor.atBit (w.cursor.bitPosition + (code word.toNat).length) = w'.cursor := by
    rw [Writer.cursor_eq_atBit h', happended, List.length_append, Writer.length_bits h]
  have hread := Reader.takes_code word ⟨bytes, w.cursor⟩ rest hunread
  have hsteps := StepReader.readWord_of_code hword (s := ⟨⟨bytes, w.cursor⟩, []⟩) hunread
  rw [hread, hsteps, ← hcursor]
  exact ⟨rfl, rfl⟩

/-- Steps lead every cursor further by their widths; a cursor is at the last bit of a byte just where the
next bit begins another one, and different cursors have different numbers of bits before them.  All this
holds of a cursor in machine words too, as long as the number of bits fits a word: it then stays at the
offset of a bit, and where the other cursor is.  After any operations and from any capacity, unless an
allocation is refused, a zero moves the cursor of a writer by one bit, a logical byte by one byte, and a
word other than zero by as many bytes as it has logical ones, which are also the steps of a reader that
reads the word back. -/
theorem cursors_move_alike (capacity : Nat) (operations : List Operation) :
    (∀ (c : Cursor) (steps : List Step),
      (c.walk steps).bitPosition = c.bitPosition + Step.widths steps ∧
      (c.atLastBit = true ↔ c.advanceBit.bitPosition % 8 = 0) ∧
      ∀ d : Cursor, c = d ↔ c.bitPosition = d.bitPosition) ∧
    (∀ (m : MachineCursor) (steps : List Step), m.bit < 8 → m.place + Step.widths steps < 2 ^ 64 →
      (m.walk steps).bit < 8 ∧
      (m.walk steps).bitPosition.toNat = m.bitPosition.toNat + Step.widths steps ∧
      (∀ c : Cursor, m.IsAt c → (m.walk steps).IsAt (c.walk steps)) ∧
      (m.place + Step.widths steps + 1 < 2 ^ 64 →
        ((m.walk steps).advanceBit.1 = true ↔
          (m.walk steps).advanceBit.2.bitPosition.toNat % 8 = 0))) ∧
    (∀ m m' : MachineCursor, m.bit < 8 → m'.bit < 8 → m.place < 2 ^ 64 → m'.place < 2 ^ 64 →
      (m = m' ↔ m.bitPosition = m'.bitPosition)) ∧
    (AllocationGranted (Operation.actAfter capacity operations Writer.writeZero) →
      ∃ w w', Operation.actAfter capacity operations Writer.writeZero = .ok (w, w') ∧
        Writer.Walks [.bit] w w') ∧
    (∀ byte, AllocationGranted (Operation.actAfter capacity operations (Writer.writeLogicalByte byte)) →
      ∃ w w', Operation.actAfter capacity operations (Writer.writeLogicalByte byte) = .ok (w, w') ∧
        Writer.Walks [.byte] w w') ∧
    ∀ word, word ≠ 0 → AllocationGranted (Operation.actAfter capacity operations (writeWord word)) →
      (writeWord word : WriteM Writer Unit) = (logicalBytes word).forM Writer.writeLogicalByte ∧
      ∃ w w', Operation.actAfter capacity operations (writeWord word) = .ok (w, w') ∧
        Writer.Walks (List.replicate (logicalBytes word).length .byte) w w' ∧
        w'.bits <+: Bits.ofBytes w'.toBytes.toList ∧
        ∀ bytes, w'.bits <+: Bits.ofBytes bytes.toList →
          (readWord : ReadM Reader UInt32) ⟨bytes, w.cursor⟩ = .ok word ⟨bytes, w'.cursor⟩ ∧
          (readWord : ReadM StepReader UInt32) ⟨⟨bytes, w.cursor⟩, []⟩ =
            .ok word ⟨⟨bytes, w'.cursor⟩, List.replicate (logicalBytes word).length .byte⟩ := by
  refine ⟨fun c steps => ⟨c.bitPosition_walk steps, ?_, fun d => ?_⟩,
    fun m steps hbit hrange => ⟨MachineCursor.bit_walk_lt hbit hrange,
      MachineCursor.toNat_bitPosition_walk hbit hrange, fun c hc => hc.walk_of_range hrange,
      fun hnext => ?_⟩,
    fun m m' hbit hbit' hrange hrange' =>
      MachineCursor.eq_iff_bitPosition_eq hbit hbit' hrange hrange',
    fun hgranted => ?_, fun byte hgranted => ?_, fun word hword hgranted => ?_⟩
  · rw [Cursor.bitPosition_advanceBit]
    exact c.atLastBit_iff
  · exact ⟨congrArg Cursor.bitPosition, Cursor.eq_of_bitPosition_eq⟩
  · refine MachineCursor.rolls_iff (MachineCursor.bit_walk_lt hbit hrange) ?_
    rwa [MachineCursor.place_walk hbit hrange]
  · exact Operation.exists_actAfter (fun _ hw =>
      (Writer.walks_of_appends Writer.appends_writeZero rfl hw).mono fun _ _ hpost => hpost.2.2) hgranted
  · exact Operation.exists_actAfter (fun _ hw =>
      (Writer.walks_of_appends (Writer.appends_writeLogicalByte byte) rfl hw).mono
        fun _ _ hpost => hpost.2.2) hgranted
  · have hact : ∀ w : Writer, w.Sound → Achieves (writeWord word) w fun _ w' =>
        w.Sound ∧ w'.Sound ∧ w'.bits = w.bits ++ code word.toNat ∧
          Writer.Walks (byteSteps word) w w' := fun w hw =>
      (Writer.walks_of_appends (Writer.appends_code word) (widths_byteSteps hword) hw).mono
        fun _ _ hpost => ⟨hw, hpost⟩
    obtain ⟨w, w', hok, hw, hw', happended, hwalks⟩ := Operation.exists_actAfter hact hgranted
    refine ⟨if_neg hword, w, w', hok, hwalks, ?_, fun bytes hbytes =>
      readWord_of_appended hword hw hw' happended hbytes⟩
    rw [Writer.ofBytes_toBytes hw']
    exact List.prefix_append _ _

/-- Machine words over a roll into the third byte, and a writer without room at the last bit of its first
byte: a zero rolls on, and the two logical bytes of another word straddle the next ones. -/
theorem cursors_roll_alike :
    ((MachineCursor.mk 0 6).walk [.bit, .byte]).bitPosition.toNat = 15 ∧
    ((MachineCursor.mk 0 6).walk [.bit, .byte]).IsAt ((Cursor.atBit 6).walk [.bit, .byte]) ∧
    ((MachineCursor.mk 0 6).walk [.bit, .byte]).advanceBit.1 = true ∧
    (MachineCursor.mk 0 6).walk [.bit, .byte, .bit] = MachineCursor.mk 2 0 ∧
    (∃ w w', Operation.actAfter 0 (List.replicate 7 (.call .zero)) Writer.writeZero = .ok (w, w') ∧
      Writer.Walks [.bit] w w') ∧
    (∃ w w', Operation.actAfter 0 (List.replicate 7 (.call .zero)) (Writer.writeLogicalByte 255) =
      .ok (w, w') ∧ Writer.Walks [.byte] w w') ∧
    ∃ w w', Operation.actAfter 0 (List.replicate 7 (.call .zero)) (writeWord 300) = .ok (w, w') ∧
      (readWord : ReadM StepReader UInt32) ⟨⟨w'.toBytes, w.cursor⟩, []⟩ =
        .ok 300 ⟨⟨w'.toBytes, w'.cursor⟩, [.byte, .byte]⟩ := by
  obtain ⟨-, hmachine, hequal, hzero, hbyte, hword⟩ :=
    cursors_move_alike 0 (List.replicate 7 (.call .zero))
  obtain ⟨-, hposition, hwalk, htold⟩ :=
    hmachine (MachineCursor.mk 0 6) [.bit, .byte] (by decide) (by decide)
  obtain ⟨-, w, w', hok, -, htoBytes, hread⟩ := hword 300 (by decide) (by decide +kernel)
  refine ⟨hposition, hwalk _ ⟨rfl, rfl⟩, (htold (by decide)).mpr (by decide), ?_,
    hzero (by decide +kernel), hbyte 255 (by decide +kernel), w, w', hok, ?_⟩
  · exact (hequal _ _ (by decide) (by decide) (by decide) (by decide)).mpr (by decide)
  · have htwo : List.replicate (logicalBytes 300).length Step.byte = [.byte, .byte] := by
      decide +kernel
    rw [← htwo]
    exact (hread _ htoBytes).2

end WordStream.Sparse
