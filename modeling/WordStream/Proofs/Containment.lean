import Mathlib.Tactic.IntervalCases
import WordStream.Proofs.Addresses
import WordStream.Proofs.Sparse.Grammar
import WordStream.Proofs.Sparse.Motion
import WordStream.Proofs.Standard.Grammar

/-!
# Readers stay inside their bytes

On any bytes, from any position and under any run of reads, the failed ones included, a reader moves
forward and not past the end of its bytes.  A reader that starts there or behind it never moves, and all
that is asked of it fails for the want of more.  In the standard format every read goes on by a byte at
least where there is one, so that a run of as many reads as there are bytes comes to the end.
-/

namespace WordStream

/-! ## The standard format -/

namespace Standard.Reader

instance : Extent Reader where
  place r := r.position
  limit r := r.bytes.size

theorem nextByte_proceeds (context : String) : Proceeds 1 (nextByte context) := by
  have hrun : ∀ r : Reader, r.position < r.bytes.size → ∃ byte,
      nextByte context r = .ok byte { r with position := r.position + 1 } := by
    intro r hr
    exact ⟨r.bytes[r.position], by simp only [nextByte, Array.getElem?_eq_getElem hr]⟩
  have hends : ∀ r : Reader, r.bytes.size ≤ r.position →
      nextByte context r = .error ⟨.unexpectedEnd, context⟩ r := by
    intro r hr
    simp only [nextByte, Array.getElem?_eq_none hr]
  refine ⟨fun r => ?_, fun r hr => ?_, fun r hr => ⟨context, hends r hr⟩⟩
  · rcases Nat.lt_or_ge r.position r.bytes.size with hr | hr
    · obtain ⟨byte, hok⟩ := hrun r hr
      rw [hok]
      exact ⟨rfl, Nat.le_succ _, Nat.le_trans hr (Nat.le_max_right _ _)⟩
    · rw [hends r hr]
      exact contained_stepwise.refl r
  · obtain ⟨byte, hok⟩ := hrun r hr
    rw [hok]
    exact Nat.le_refl _

/-- Every read of the format takes a byte first. -/
theorem proceedsOnWords : ProceedsOnWords Reader 1 where
  readWord := by
    change Proceeds 1 (Varint.read (nextByte "uint32") "uint32")
    rw [Varint.read_eq, Chain.read_succ]
    refine (nextByte_proceeds "uint32").bind fun byte => ?_
    have hc := Moves.compositional (contained_stepwise (ρ := Reader))
    split
    · exact hc.throw _
    · split
      · exact hc.pure _
      · exact hc.chain _ (nextByte "uint32") (nextByte_proceeds "uint32").contained _ _ _ _
  readBool := (nextByte_proceeds "bool").map (· != 0)
  readByte := nextByte_proceeds "byte"

/-- A word that is read takes up one to five bytes. -/
theorem position_of_readWord {r r' : Reader} {w : UInt32}
    (h : (readWord : ReadM Reader UInt32) r = .ok w r') :
    r.position + 1 ≤ r'.position ∧ r'.position ≤ r.position + 5 := by
  obtain ⟨n, ⟨hn, -⟩, -, rfl⟩ := ((readVarint_judges "uint32" r).ok_iff w r').mp h
  have hlast : n ≤ 4 := hn
  change r.position + 1 ≤ r.position + 1 * (n + 1) ∧ r.position + 1 * (n + 1) ≤ r.position + 5
  omega

end Standard.Reader

/-! ## The sparse format -/

namespace Sparse.Reader

instance : Extent Reader where
  place r := r.cursor.bitPosition
  limit r := 8 * r.bytes.size

theorem length_unread (r : Reader) : (unread r).length = limit r - place r := by
  change ((Bits.ofBytes r.bytes.toList).drop r.cursor.bitPosition).length = _
  rw [List.length_drop, Bits.length_ofBytes, Array.length_toList]
  rfl

/-- Taking symbols that lie ahead is contained. -/
theorem contained_skip {r : Reader} {n : Nat} (h : n ≤ (unread r).length) : Contained r (skip n r) := by
  have hplace : place (skip n r) = place r + n := Cursor.bitPosition_atBit _
  rw [length_unread] at h
  exact ⟨rfl, by omega, by omega⟩

theorem readZero_proceeds : Proceeds 0 readZero := by
  have hcontained : Moves Contained readZero := by
    intro r
    cases hunread : unread r with
    | nil =>
        rw [readZero_of_unread_nil hunread]
        exact contained_stepwise.refl r
    | cons bit rest =>
        cases bit with
        | true =>
            rw [readZero_of_true hunread]
            exact contained_stepwise.refl r
        | false =>
            rw [takes_readZero r rest hunread]
            exact contained_skip (by simp [hunread])
  refine ⟨hcontained, fun r _ => (hcontained r).forward, fun r hr => ⟨"zero flag", ?_⟩⟩
  refine readZero_of_unread_nil (List.eq_nil_of_length_eq_zero ?_)
  rw [length_unread]
  omega

theorem nextLogicalByte_contained : Moves Contained nextLogicalByte := by
  intro r
  cases hbyte : r.logicalByte? with
  | none =>
      have hrun : nextLogicalByte r = .error ⟨.unexpectedEnd, "sparse value"⟩ r := by
        simp only [nextLogicalByte, hbyte]
      rw [hrun]
      exact contained_stepwise.refl r
  | some byte =>
      have hrun : nextLogicalByte r = .ok byte (skip 8 r) := by
        simp only [nextLogicalByte, hbyte, skip_eight]
      have hlength := congrArg List.length (take_of_logicalByte? hbyte)
      rw [List.length_take, Bits.length_ofByte] at hlength
      rw [hrun]
      exact contained_skip (by omega)

/-- Every read of the format looks at a flag first. -/
theorem proceedsOnWords : ProceedsOnWords Reader 0 := by
  have hmoves := movesOnWords contained_stepwise readZero_proceeds.contained nextLogicalByte_contained
  have hword : Proceeds 0 (readWord : ReadM Reader UInt32) := by
    refine ⟨hmoves.readWord, fun r _ => (hmoves.readWord r).forward, fun r hr => ?_⟩
    obtain ⟨context, herror⟩ := readZero_proceeds.ends r hr
    exact ⟨context, bind_of_error herror⟩
  exact ⟨hword, hword.map (· != 0), hword.map UInt32.toUInt8⟩

/-- A word that is read takes up the bit of a zero, or one to five logical bytes. -/
theorem bitPosition_of_readWord {r r' : Reader} {w : UInt32}
    (h : (readWord : ReadM Reader UInt32) r = .ok w r') :
    ∃ n ∈ [1, 8, 16, 24, 32, 40], r'.cursor.bitPosition = r.cursor.bitPosition + n := by
  have hskip : ∀ n, (skip n r : Reader).cursor.bitPosition = r.cursor.bitPosition + n :=
    fun n => Cursor.bitPosition_atBit _
  cases hunread : unread r with
  | nil =>
      rw [readWord_of_unread_nil hunread] at h
      cases h
  | cons bit rest =>
      cases bit with
      | false =>
          have hzero := takes_code 0 r rest hunread
          rw [h] at hzero
          injection hzero with _ hleft
          exact ⟨1, by decide, by rw [hleft, hskip]; rfl⟩
      | true =>
          obtain ⟨tail, hgroups, hshort⟩ := Bits.exists_wholeBytes_append (unread r)
          rw [readWord_of_flag hunread] at h
          obtain ⟨n, ⟨hn, -⟩, -, rfl⟩ := ((readChain_judges hgroups hshort).ok_iff w r').mp h
          have hlast : n ≤ 4 := hn
          refine ⟨8 * (n + 1), ?_, hskip _⟩
          interval_cases n <;> decide

end Sparse.Reader

namespace Sparse.Request

theorem read_contained (request : Request) : Moves Contained (request.read Reader.readZero) := by
  cases request with
  | typed request => exact request.read_contained Reader.proceedsOnWords
  | zero => exact (Reader.readZero_proceeds.map fun isZero => [Item.bool isZero]).contained

theorem read_proceeds {request : Request} (hasks : request.asks = true) :
    Proceeds 0 (request.read Reader.readZero) := by
  cases request with
  | typed request => exact WordStream.Request.read_proceeds Reader.proceedsOnWords hasks
  | zero => exact Reader.readZero_proceeds.map fun isZero => [Item.bool isZero]

end Sparse.Request

/-! ## Runs -/

/-- Make requests of a reader of the standard format, also after failures. -/
def Standard.Reader.run (requests : List Request) :
    ReadM Reader (List (Except DecodeError (List Item) × Nat)) :=
  traced place (requests.map fun request => told request.read)

/-- Make requests of a reader that counts in machine words, also after failures. -/
def Standard.MachineReader.run (requests : List Request) :
    ReadM MachineReader (List (Except DecodeError (List Item) × Nat)) :=
  traced MachineReader.place (requests.map fun request => told request.read)

/-- Make requests of a reader of the sparse format, also after failures. -/
def Sparse.Reader.run (requests : List Request) :
    ReadM Reader (List (Except DecodeError (List Item) × Nat)) :=
  traced place (requests.map fun request => told (request.read readZero))

/-- Make requests of a sparse reader that counts in machine words, also after failures. -/
def Sparse.MachineReader.run (requests : List Request) :
    ReadM MachineReader (List (Except DecodeError (List Item) × Nat)) :=
  traced MachineReader.place (requests.map fun request => told (request.read readZero))

theorem Standard.exists_run {bytes : Array UInt8} {start : Nat}
    (hsize : bytes.size ≤ Limits.maxAllocation) (hstart : start < Limits.addressBound)
    (requests : List Request) :
    ∃ shown r m, Reader.run requests ⟨bytes, start⟩ = .ok shown r ∧
      MachineReader.run requests ⟨bytes, UInt64.ofNat start⟩ = .ok shown m ∧
      StaysInside Request.asks start bytes.size requests shown ∧
      (bytes.size ≤ start + requests.countP Request.asks → r.isEmpty = true) := by
  have haddresses : MachineReader.Addresses ⟨bytes, start⟩ ⟨bytes, UInt64.ofNat start⟩ :=
    ⟨hsize, rfl, UInt64.toNat_ofNat_of_lt' hstart⟩
  have hplaces : ∀ r m, MachineReader.Addresses r m → place r = m.place :=
    fun _ _ h => h.position.symm
  obtain ⟨shown, r, m, hrun, hmachine, hlimit, hstays, hfar⟩ :=
    exists_traced_in_step (Request.read_contained Reader.proceedsOnWords)
      (fun _ => Request.read_proceeds Reader.proceedsOnWords) MachineReader.read_inStep hplaces
      requests haddresses
  refine ⟨shown, r, m, hrun, hmachine, hstays, fun hcount => decide_eq_true ?_⟩
  change r.bytes.size = bytes.size at hlimit
  change min bytes.size (start + 1 * requests.countP Request.asks) ≤ r.position at hfar
  omega

theorem Sparse.exists_run {bytes : Array UInt8} {start : Nat}
    (hsize : bytes.size ≤ Limits.maxAllocation) (hstart : start < Limits.addressBound)
    (requests : List Request) :
    ∃ shown r m, Reader.run requests ⟨bytes, ⟨start, .start⟩⟩ = .ok shown r ∧
      MachineReader.run requests ⟨bytes, UInt64.ofNat start, 0⟩ = .ok shown m ∧
      StaysInside Request.asks (8 * start) (8 * bytes.size) requests shown := by
  have haddresses : MachineReader.Addresses ⟨bytes, ⟨start, .start⟩⟩
      ⟨bytes, UInt64.ofNat start, 0⟩ :=
    ⟨hsize, rfl, UInt64.toNat_ofNat_of_lt' hstart, rfl⟩
  have hplaces : ∀ r m, MachineReader.Addresses r m → place r = m.place := by
    intro r m h
    change 8 * r.cursor.byte + r.cursor.bit.val = 8 * m.byte.toNat + m.bit.toNat
    rw [h.byte, h.bit]
  obtain ⟨shown, r, m, hrun, hmachine, -, hstays, -⟩ :=
    exists_traced_in_step Request.read_contained (fun _ => Request.read_proceeds)
      MachineReader.read_inStep hplaces requests haddresses
  exact ⟨shown, r, m, hrun, hmachine, hstays⟩

/-- Over any bytes that lie in memory, from any position, every run of requests ends, whichever of them
fail.  It stays inside of the bytes, and it shows the same when positions are counted in machine words, so
that no position wraps around.  A word that is read takes up as much as its format allows for one.  In the
standard format all that is asked for before the end goes on by a byte, and so as many requests as there
are bytes come to the end. -/
theorem readers_stay_inside (bytes : Array UInt8) (start : Nat)
    (hsize : bytes.size ≤ Limits.maxAllocation) (hstart : start < Limits.addressBound) :
    (∀ requests : List Request, ∃ shown r m,
      Standard.Reader.run requests ⟨bytes, start⟩ = .ok shown r ∧
      Standard.MachineReader.run requests ⟨bytes, UInt64.ofNat start⟩ = .ok shown m ∧
      StaysInside Request.asks start bytes.size requests shown ∧
      (bytes.size ≤ start + requests.countP Request.asks → r.isEmpty = true)) ∧
    (∀ requests : List Sparse.Request, ∃ shown r m,
      Sparse.Reader.run requests ⟨bytes, ⟨start, .start⟩⟩ = .ok shown r ∧
      Sparse.MachineReader.run requests ⟨bytes, UInt64.ofNat start, 0⟩ = .ok shown m ∧
      StaysInside Sparse.Request.asks (8 * start) (8 * bytes.size) requests shown) ∧
    (∀ (r r' : Standard.Reader) w, (readWord : ReadM _ UInt32) r = .ok w r' →
      r.position + 1 ≤ r'.position ∧ r'.position ≤ r.position + 5) ∧
    (∀ (r r' : Sparse.Reader) w, (readWord : ReadM _ UInt32) r = .ok w r' →
      ∃ n ∈ [1, 8, 16, 24, 32, 40], r'.cursor.bitPosition = r.cursor.bitPosition + n) ∧
    ∀ (request : Request) (r : Standard.Reader), request.asks = true →
      r.position < r.bytes.size → r.position + 1 ≤ (leaves (request.read r)).position :=
  ⟨Standard.exists_run hsize hstart, Sparse.exists_run hsize hstart,
    fun _ _ _ => Standard.Reader.position_of_readWord,
    fun _ _ _ => Sparse.Reader.bitPosition_of_readWord,
    fun _ r hasks => (Request.read_proceeds Standard.Reader.proceedsOnWords hasks).advances r⟩

/-- A chain that overflows, a double that breaks off inside of its second half, and a read at the end that
it has come to; and reads from the last address, where there are no bytes. -/
theorem readers_stay_inside_corrupt_bytes :
    (∃ shown r m,
      Standard.Reader.run [.item .word, .values [.float64, .int32], .item .bool]
        ⟨#[0xFF, 0xFF, 0xFF, 0xFF, 0xFF, 0x01, 0x80], 0⟩ = .ok shown r ∧
      Standard.MachineReader.run [.item .word, .values [.float64, .int32], .item .bool]
        ⟨#[0xFF, 0xFF, 0xFF, 0xFF, 0xFF, 0x01, 0x80], 0⟩ = .ok shown m ∧
      (∀ x ∈ shown, x.2 ≤ 7)) ∧
    ∃ shown r m,
      Sparse.Reader.run [.zero, .typed (.values []), .typed (.item .long)]
        ⟨#[0x40], ⟨0xFFFFFFFFFFFFFFFF, .start⟩⟩ = .ok shown r ∧
      Sparse.MachineReader.run [.zero, .typed (.values []), .typed (.item .long)]
        ⟨#[0x40], 0xFFFFFFFFFFFFFFFF, 0⟩ = .ok shown m ∧
      List.Forall₂ (fun (request : Sparse.Request) x => x.2 = 8 * 0xFFFFFFFFFFFFFFFF ∧
          (request.asks = true → ∃ context, x.1 = .error ⟨.unexpectedEnd, context⟩))
        [.zero, .typed (.values []), .typed (.item .long)] shown := by
  constructor
  · obtain ⟨shown, r, m, hrun, hmachine, hstays, -⟩ :=
      (readers_stay_inside #[0xFF, 0xFF, 0xFF, 0xFF, 0xFF, 0x01, 0x80] 0 (by decide) (by decide)).1
        [.item .word, .values [.float64, .int32], .item .bool]
    exact ⟨shown, r, m, hrun, hmachine, hstays.inside (by decide)⟩
  · obtain ⟨shown, r, m, hrun, hmachine, hstays⟩ :=
      (readers_stay_inside #[0x40] 0xFFFFFFFFFFFFFFFF (by decide) (by decide)).2.1
        [.zero, .typed (.values []), .typed (.item .long)]
    exact ⟨shown, r, m, hrun, hmachine, hstays.halted (by decide)⟩

end WordStream
