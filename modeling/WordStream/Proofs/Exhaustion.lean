import WordStream.Proofs.Containment
import WordStream.Proofs.Stream.Exhaustion

/-!
# Nothing is read past the end

Once a read has failed for the want of more, no later read makes up data.  In the standard format the
reader has come to the end of its bytes, where all that is asked for fails in the same way.  In the sparse
format up to seven bits may be left, too few for a chain: a word that is asked for there is the zero that
one of them stands for, or it fails for the want of more again.
-/

namespace WordStream

/-! ## The standard format -/

namespace Standard.Reader

theorem nextByte_drains (context : String) : Drains 1 (nextByte context) := by
  intro r e r' hrun _
  rcases Nat.lt_or_ge r.position r.bytes.size with hr | hr
  · simp [nextByte, Array.getElem?_eq_getElem hr] at hrun
  · simp only [nextByte, Array.getElem?_eq_none hr] at hrun
    cases hrun
    exact Nat.lt_succ_of_le hr

/-- A varint that breaks off does so at the last of the bytes. -/
theorem readWord_drains : Drains 1 (readWord : ReadM Reader UInt32) := by
  intro r e r' hrun hcause
  rcases ((readVarint_judges "uint32" r).error_iff e r').mp hrun with
    ⟨rfl, -⟩ | ⟨rfl, -⟩ | ⟨-, -, rfl⟩
  · cases hcause
  · cases hcause
  · show r.bytes.size < r.position + 1 * (r.bytes.toList.drop r.position).length + 1
    rw [List.length_drop, Array.length_toList]
    omega

theorem read_drains (request : Request) : Drains 1 (request.read : ReadM Reader (List Item)) :=
  request.read_lawful Drains.sequential (fun name _ _ _ hact => hact.withContext name)
    readWord_drains ((nextByte_drains "bool").map (· != 0)) (nextByte_drains "byte")

end Standard.Reader

/-! ## The sparse format -/

namespace Sparse.Reader

theorem drained_iff {r : Reader} : Drained 8 r ↔ (unread r).length < 8 := by
  rw [length_unread, Drained]
  omega

theorem readZero_drains : Drains 8 readZero := by
  intro r e r' hrun _
  cases hunread : unread r with
  | nil =>
      rw [readZero_of_unread_nil hunread] at hrun
      cases hrun
      exact drained_iff.mpr (by simp [hunread])
  | cons bit rest =>
      cases bit with
      | true =>
          rw [readZero_of_true hunread] at hrun
          cases hrun
      | false =>
          rw [takes_readZero r rest hunread] at hrun
          cases hrun

/-- A chain that breaks off has taken all the whole groups ahead. -/
theorem readWord_drains : Drains 8 (readWord : ReadM Reader UInt32) := by
  intro r e r' hrun hcause
  cases hunread : unread r with
  | nil =>
      rw [readWord_of_unread_nil hunread] at hrun
      cases hrun
      exact drained_iff.mpr (by simp [hunread])
  | cons bit rest =>
      cases bit with
      | false =>
          rw [takes_code 0 r rest hunread] at hrun
          cases hrun
      | true =>
          obtain ⟨tail, hgroups, hshort⟩ := Bits.exists_wholeBytes_append (unread r)
          rw [readWord_of_flag hunread] at hrun
          rcases ((readChain_judges hgroups hshort).error_iff e r').mp hrun with
            ⟨rfl, -⟩ | ⟨rfl, -⟩ | ⟨-, -, rfl⟩
          · cases hcause
          · cases hcause
          · have hlength := congrArg List.length hgroups
            rw [List.length_append, Bits.length_ofBytes] at hlength
            rw [drained_iff, unread_skip, List.length_drop]
            omega

theorem read_drains (request : Sparse.Request) : Drains 8 (request.read readZero) := by
  cases request with
  | typed request =>
      exact request.read_lawful Drains.sequential (fun name _ _ _ hact => hact.withContext name)
        readWord_drains (readWord_drains.map (· != 0))
        (readWord_drains.map UInt32.toUInt8)
  | zero => exact readZero_drains.map fun isZero => [Item.bool isZero]

/-! ### Less than a group -/

/-- Where less than a group is left, a word is the zero of the next bit, or it is not there. -/
theorem readWord_of_drained {r : Reader} (h : Drained 8 r) :
    (readWord : ReadM Reader UInt32) r = .ok 0 (skip 1 r) ∨
      ∃ context, (readWord : ReadM Reader UInt32) r = .error ⟨.unexpectedEnd, context⟩ r := by
  cases hunread : unread r with
  | nil => exact .inr ⟨_, readWord_of_unread_nil hunread⟩
  | cons bit rest =>
      cases bit with
      | false => exact .inl (takes_code 0 r rest hunread)
      | true =>
          -- The flag is set, but its group would need a bit that is not there.
          have hchain : readChain r = .error ⟨.unexpectedEnd, "sparse value"⟩ r :=
            bind_of_error (nextLogicalByte_of_short (drained_iff.mp h))
          exact .inr ⟨_, (readWord_of_flag hunread).trans hchain⟩

theorem drained_of_contained {r r' : Reader} (h : Drained 8 r) (hmove : Contained r r') :
    Drained 8 r' := by
  have hlimit := hmove.limit_eq
  have hforward := hmove.forward
  unfold Drained at *
  omega

theorem readWord_onlyWants : OnlyWants 8 (readWord : ReadM Reader UInt32) := by
  refine fun r hr => ⟨drained_of_contained hr (proceedsOnWords.readWord.contained r), ?_⟩
  intro e r' hrun
  rcases readWord_of_drained hr with hok | ⟨context, herror⟩
  · rw [hok] at hrun
    cases hrun
  · rw [herror] at hrun
    cases hrun
    rfl

theorem readZero_onlyWants : OnlyWants 8 readZero := by
  refine fun r hr => ⟨drained_of_contained hr (readZero_proceeds.contained r), ?_⟩
  intro e r' hrun
  unfold readZero at hrun
  split at hrun
  · cases hrun
  · cases hrun
  · cases hrun
    rfl

theorem read_onlyWants (request : Sparse.Request) : OnlyWants 8 (request.read readZero) := by
  cases request with
  | typed request =>
      exact request.read_lawful OnlyWants.sequential (fun name _ _ _ hact => hact.withContext name)
        readWord_onlyWants (readWord_onlyWants.map (· != 0))
        (readWord_onlyWants.map UInt32.toUInt8)
  | zero => exact readZero_onlyWants.map fun isZero => [Item.bool isZero]

end Sparse.Reader

/-! ### Runs -/

namespace Sparse

/-- The words that a run of requests was given where it asked for a word. -/
def wordsGiven (requests : List Request) (shown : List (Except DecodeError (List Item) × Nat)) :
    List Item :=
  (requests.zip shown).flatMap fun x =>
    match x with
    | (.typed (.item .word), .ok items, _) => items
    | _ => []

theorem wordsGiven_cons (request : Request) (requests : List Request)
    (x : Except DecodeError (List Item) × Nat) (shown : List (Except DecodeError (List Item) × Nat)) :
    wordsGiven (request :: requests) (x :: shown) =
      wordsGiven [request] [x] ++ wordsGiven requests shown := by
  simp [wordsGiven]

/-- Where less than a group is left, a request is given zeros for words, each for a bit of its own. -/
theorem wordsGiven_of_drained (request : Request) {r : Reader} (h : Drained 8 r) :
    ∃ n, wordsGiven [request]
        [(outcome (request.read Reader.readZero r), place (leaves (request.read Reader.readZero r)))] =
          List.replicate n (.word 0) ∧
      place r + n ≤ place (leaves (request.read Reader.readZero r)) := by
  have hforward := (request.read_contained r).forward
  by_cases hword : request = .typed (.item .word)
  · subst hword
    rcases Reader.readWord_of_drained h with hok | ⟨context, herror⟩
    · have hrun : Request.read Reader.readZero (.typed (.item .word)) r = .ok [.word 0] (skip 1 r) :=
        bind_of_ok (bind_of_ok hok)
      rw [hrun]
      exact ⟨1, rfl, Nat.le_of_eq (Cursor.bitPosition_atBit _).symm⟩
    · have hrun : Request.read Reader.readZero (.typed (.item .word)) r =
          .error ⟨.unexpectedEnd, context⟩ r :=
        bind_of_error (bind_of_error herror)
      rw [hrun]
      exact ⟨0, rfl, Nat.le_refl _⟩
  · refine ⟨0, ?_, hforward⟩
    simp only [wordsGiven, List.zip_cons_cons, List.zip_nil_right, List.flatMap_cons, List.flatMap_nil,
      List.append_nil, List.replicate_zero]
    split
    · next hx =>
        simp only [Prod.mk.injEq] at hx
        exact absurd hx.1 hword
    · rfl

/-- Where less than a group is left, a run fails for nothing but the want of more, and the words that it
is given are zeros, no more than the bits that it comes past. -/
theorem exists_run_of_drained (requests : List Request) {r : Reader} (h : Drained 8 r) :
    ∃ shown r' n, Reader.run requests r = .ok shown r' ∧ Drained 8 r' ∧ Contained r r' ∧
      wordsGiven requests shown = List.replicate n (.word 0) ∧ place r + n ≤ place r' ∧
      ∀ x ∈ shown, ∀ e, x.1 = .error e → e.cause = .unexpectedEnd := by
  induction requests generalizing r with
  | nil => exact ⟨[], r, 0, rfl, h, contained_stepwise.refl r, rfl, Nat.le_refl _, by simp⟩
  | cons request requests ih =>
      obtain ⟨hdrained, hcause⟩ := Reader.read_onlyWants request r h
      obtain ⟨n, hwords, hplace⟩ := wordsGiven_of_drained request h
      obtain ⟨shown, r', m, hrun, hdrained', hmove, hwords', hplace', hcauses⟩ := ih hdrained
      refine ⟨_, r', n + m, traced_cons_ok place rfl hrun, hdrained',
        contained_stepwise.trans (request.read_contained r) hmove, ?_, by omega, ?_⟩
      · rw [wordsGiven_cons, hwords, hwords', List.replicate_append_replicate]
      · intro x hx e he
        rcases List.mem_cons.mp hx with rfl | hx
        · cases hrun : request.read Reader.readZero r with
          | ok items s =>
              rw [hrun] at he
              cases he
          | error e' s =>
              rw [hrun] at he
              cases he
              exact hcause e s hrun
        · exact hcauses x hx e he

end Sparse

/-- A read that fails for the want of more is the last one to find any data.  In the standard format it
leaves the reader at the end of its bytes, or where it was if that is behind them, and all that is asked
for later fails in the same way and leaves it there.  In the sparse format less than eight bits are left.
Whatever is asked for later fails for nothing else; a word that is asked for at any later time is a zero of
one bit, or it is wanting and the reader stays, so that no more than seven words are given, all zero. -/
theorem nothing_is_read_past_the_end :
    (∀ (request : Request) (r r' : Standard.Reader) (context : String),
      request.read r = .error ⟨.unexpectedEnd, context⟩ r' →
      r'.position = max r.position r.bytes.size ∧
      ∀ later : List Request, ∃ shown r'', Standard.Reader.run later r' = .ok shown r'' ∧
        List.Forall₂ (fun (request : Request) x => x.2 = r'.position ∧
          (request.asks = true → ∃ context, x.1 = .error ⟨.unexpectedEnd, context⟩)) later shown) ∧
    ∀ (request : Sparse.Request) (r r' : Sparse.Reader) (context : String),
      request.read Sparse.Reader.readZero r = .error ⟨.unexpectedEnd, context⟩ r' →
      8 * r.bytes.size < r'.cursor.bitPosition + 8 ∧
      ∀ later : List Sparse.Request, ∃ shown r'' n, Sparse.Reader.run later r' = .ok shown r'' ∧
        (∀ x ∈ shown, ∀ e, x.1 = .error e → e.cause = .unexpectedEnd) ∧
        Sparse.wordsGiven later shown = List.replicate n (.word 0) ∧ n ≤ 7 ∧
        ((readWord : ReadM Sparse.Reader UInt32) r'' =
            .ok 0 { r'' with cursor := r''.cursor.advanceBit } ∨
          ∃ context, (readWord : ReadM Sparse.Reader UInt32) r'' =
            .error ⟨.unexpectedEnd, context⟩ r'') := by
  constructor
  · intro request r r' context hrun
    have hmove := request.read_contained Standard.Reader.proceedsOnWords r
    have hdrained := Standard.Reader.read_drains request r _ r' hrun rfl
    rw [hrun] at hmove
    have hlimit : r'.bytes.size = r.bytes.size := hmove.limit_eq
    have hforward : r.position ≤ r'.position := hmove.forward
    have hinside : r'.position ≤ max r.position r.bytes.size := hmove.inside
    have hend : r'.bytes.size ≤ r'.position := Nat.le_of_lt_succ hdrained
    refine ⟨by omega, fun later => ?_⟩
    obtain ⟨shown, r'', hlater, -, hstays, -⟩ :=
      exists_traced_told (Request.read_contained Standard.Reader.proceedsOnWords)
        (fun _ => Request.read_proceeds Standard.Reader.proceedsOnWords) later r'
    exact ⟨shown, r'', hlater, hstays.halted hend⟩
  · intro request r r' context hrun
    have hmove := request.read_contained r
    have hdrained := Sparse.Reader.read_drains request r _ r' hrun rfl
    rw [hrun] at hmove
    have hlimit : 8 * r'.bytes.size = 8 * r.bytes.size := hmove.limit_eq
    have hless : 8 * r'.bytes.size < r'.cursor.bitPosition + 8 := hdrained
    refine ⟨by omega, fun later => ?_⟩
    obtain ⟨shown, r'', n, hlater, hdrained', hmove', hwords, hplace, hcauses⟩ :=
      Sparse.exists_run_of_drained later hdrained
    have hinside : r''.cursor.bitPosition ≤ max r'.cursor.bitPosition (8 * r'.bytes.size) :=
      hmove'.inside
    have hcount : r'.cursor.bitPosition + n ≤ r''.cursor.bitPosition := hplace
    refine ⟨shown, r'', n, hlater, hcauses, hwords, by omega, ?_⟩
    rw [Sparse.Reader.skip_one]
    exact Sparse.Reader.readWord_of_drained hdrained'

/-- A long whose second half breaks off, and a chain that leaves seven zeros behind it: of eight words that
are asked for, seven are given, and the last one is wanting. -/
theorem nothing_is_read_past_chains_that_break_off :
    (∃ shown r, Standard.Reader.run [.item .bool, .values [.float64]] ⟨#[0x05, 0x80, 0x81], 3⟩ =
        .ok shown r ∧
      ∀ x ∈ shown, x.2 = 3 ∧ ∃ context, x.1 = .error ⟨.unexpectedEnd, context⟩) ∧
    ∃ shown, Sparse.Reader.run (List.replicate 8 (.typed (.item .word))) ⟨#[0x60, 0x00], ⟨1, 1⟩⟩ =
        .ok shown ⟨#[0x60, 0x00], ⟨2, 0⟩⟩ ∧
      Sparse.wordsGiven (List.replicate 8 (.typed (.item .word))) shown = List.replicate 7 (.word 0) ∧
      ∃ context, (readWord : ReadM Sparse.Reader UInt32) ⟨#[0x60, 0x00], ⟨2, 0⟩⟩ =
        .error ⟨.unexpectedEnd, context⟩ ⟨#[0x60, 0x00], ⟨2, 0⟩⟩ := by
  constructor
  · obtain ⟨-, hlater⟩ := nothing_is_read_past_the_end.1 (.item .long) ⟨#[0x05, 0x80, 0x81], 0⟩
      ⟨#[0x05, 0x80, 0x81], 3⟩ _ rfl
    obtain ⟨shown, r, hrun, hshown⟩ := hlater [.item .bool, .values [.float64]]
    refine ⟨shown, r, hrun, fun x hx => ?_⟩
    cases hshown with
    | cons hfirst hrest =>
        cases hrest with
        | cons hsecond hnone =>
            cases hnone
            rcases List.mem_pair.mp hx with rfl | rfl
            · exact ⟨hfirst.1, hfirst.2 rfl⟩
            · exact ⟨hsecond.1, hsecond.2 rfl⟩
  · obtain ⟨-, hlater⟩ := nothing_is_read_past_the_end.2 (.typed (.item .word))
      ⟨#[0x60, 0x00], ⟨0, 1⟩⟩ ⟨#[0x60, 0x00], ⟨1, 1⟩⟩ _ rfl
    obtain ⟨shown, r, n, hrun, -, hwords, -, hnext⟩ :=
      hlater (List.replicate 8 (.typed (.item .word)))
    have hcomputed : ∃ seen, Sparse.Reader.run (List.replicate 8 (.typed (.item .word)))
        ⟨#[0x60, 0x00], ⟨1, 1⟩⟩ = .ok seen ⟨#[0x60, 0x00], ⟨2, 0⟩⟩ ∧
        (Sparse.wordsGiven (List.replicate 8 (.typed (.item .word))) seen).length = 7 :=
      ⟨_, rfl, by decide +kernel⟩
    obtain ⟨seen, hseen, hcount⟩ := hcomputed
    rw [hseen] at hrun
    injection hrun with hshown hleft
    subst hshown hleft
    rw [hwords, List.length_replicate] at hcount
    subst hcount
    exact ⟨seen, hseen, hwords, hnext.resolve_left fun hzero => by cases hzero⟩

end WordStream
