import WordStream.Proofs.RoundTrip
import WordStream.Proofs.Sparse.Motion

/-!
# Sections that are read in any order

A writer that aligns before each section can tell where the section begins, and a reader that moves
there finds it, whatever it did before: nothing that is written later touches what lies before it, and
no read changes the bytes or remembers more than its cursor.
-/

namespace WordStream.Sparse

/-! ## Writing sections -/

/-- Align, write a section, and tell the position that it begins at. -/
def Writer.writeSection (exchanges : List Exchange) : WriteM Writer Nat := do
  let position ← align
  exchanges.forM Exchange.write
  return position

/-- A section lies in a string of bits, from the byte at the first place up to the second one. -/
def Lies (exchanges : List Exchange) (place : Nat × Cursor) (bits : List Bool) : Prop :=
  ∃ before after, bits = before ++ (exchanges.flatMap Exchange.bits ++ after) ∧
    before.length = 8 * place.1 ∧
    place.2 = .atBit (before.length + (exchanges.flatMap Exchange.bits).length)

/-- What is written later does not touch a section. -/
theorem Lies.append {exchanges : List Exchange} {place : Nat × Cursor} {bits : List Bool}
    (h : Lies exchanges place bits) (more : List Bool) : Lies exchanges place (bits ++ more) := by
  obtain ⟨before, after, rfl, hplace⟩ := h
  exact ⟨before, after ++ more, by simp, hplace⟩

namespace Writer

theorem writeSection_achieves {w : Writer} (h : w.Sound) (exchanges : List Exchange) :
    Achieves (writeSection exchanges) w fun position w' =>
      w'.Sound ∧ (∃ more, w'.bits = w.bits ++ more) ∧
        Lies exchanges (position, w'.cursor) w'.bits := by
  refine (align_achieves h).bind ?_
  rintro position aligned ⟨hsound, hbit, hbits, rfl⟩
  refine (Appends.forM Exchange.appends_write exchanges aligned hsound).bind ?_
  rintro _ w' ⟨hsound', hwritten⟩
  have hwhole : w'.bits = aligned.bits ++ exchanges.flatMap Exchange.bits := hwritten
  have hlength : aligned.bits.length = 8 * aligned.buffer.position := by
    rw [length_bits hsound, bitPosition_cursor, hbit, Nat.add_zero]
  have hmore : w'.bits = w.bits ++ (List.replicate ((8 - w.bits.length % 8) % 8) false ++
      exchanges.flatMap Exchange.bits) := by
    rw [hwhole, hbits, Bits.aligned, List.append_assoc]
  refine Achieves.pure ⟨hsound', ⟨_, hmore⟩, aligned.bits, [], ?_, hlength, ?_⟩
  · rw [hwhole, List.append_nil]
  · rw [cursor_eq_atBit hsound', hwhole, List.length_append]

/-- After a run of sections, each lies between the position that it was told to begin at and the
cursor that it ended with. -/
theorem traced_writeSection_achieves (sections : List (List Exchange)) {w : Writer} (h : w.Sound) :
    Achieves (traced cursor (sections.map writeSection)) w fun places w' =>
      w'.Sound ∧ (∃ more, w'.bits = w.bits ++ more) ∧ places.length = sections.length ∧
        ∀ exchanges place, (exchanges, place) ∈ sections.zip places →
          Lies exchanges place w'.bits := by
  -- Induction on the sections: the ones to come only append to the bits that the first one lies in.
  induction sections generalizing w with
  | nil =>
      exact Achieves.pure ⟨h, ⟨[], (List.append_nil _).symm⟩, rfl, fun _ _ hmem => by simp at hmem⟩
  | cons exchanges sections ih =>
      refine Achieves.traced_cons ?_
      refine (writeSection_achieves h exchanges).mono ?_
      rintro position w' ⟨hsound, ⟨more, hmore⟩, hlies⟩
      refine (ih hsound).mono ?_
      rintro places w'' ⟨hsound', ⟨later, hlater⟩, hlength, hall⟩
      refine ⟨hsound', ⟨more ++ later, ?_⟩, by simpa using hlength, ?_⟩
      · rw [hlater, hmore, List.append_assoc]
      · intro other place hmem
        rw [List.zip_cons_cons] at hmem
        rcases List.mem_cons.mp hmem with hfirst | hrest
        · obtain ⟨rfl, rfl⟩ := Prod.mk.inj hfirst
          rw [hlater]
          exact hlies.append later
        · exact hall other place hrest

end Writer

/-! ## Visiting sections -/

/-- What an exchange writes: an item, or a zero as such. -/
def Exchange.written : Exchange → Option Item
  | typed item => some item
  | zeroAsFlag => none
  | zeroAsWord => none

theorem Exchange.bits_eq_written (exchange : Exchange) :
    exchange.bits = exchange.written.elim [false] (Item.spelled spelling) := by
  cases exchange with
  | typed item => rfl
  | zeroAsFlag => rfl
  | zeroAsWord => rfl

/-- Where a section lies, there lies every section of the same writes, however it reads its zeros. -/
theorem Lies.of_written {exchanges others : List Exchange} {place : Nat × Cursor} {bits : List Bool}
    (h : Lies exchanges place bits)
    (hwritten : others.map Exchange.written = exchanges.map Exchange.written) :
    Lies others place bits := by
  have hflat (es : List Exchange) : es.flatMap Exchange.bits =
      (es.map Exchange.written).flatMap (·.elim [false] (Item.spelled spelling)) := by
    rw [List.flatMap_map]
    exact congrArg es.flatMap (funext Exchange.bits_eq_written)
  rw [Lies, hflat, hwritten, ← hflat]
  exact h

/-- A reader at the position of a section gets every answer of it, and ends where it was ended. -/
theorem reads_section {w : Writer} (h : w.Sound) {exchanges : List Exchange} {place : Nat × Cursor}
    (hlies : Lies exchanges place w.bits) :
    exchanges.mapM Exchange.read ⟨w.toBytes, ⟨place.1, .start⟩⟩ =
      .ok (exchanges.map Exchange.answer) ⟨w.toBytes, place.2⟩ := by
  obtain ⟨before, after, hbits, hbegin, hend⟩ := hlies
  have hunread : unread (Reader.mk w.toBytes ⟨place.1, .start⟩) =
      exchanges.flatMap Exchange.bits ++ (after ++ List.replicate
        ((8 - w.bits.length % 8) % 8) false) := by
    change (Bits.ofBytes w.toBytes.toList).drop (8 * place.1) = _
    rw [Writer.ofBytes_toBytes h, Bits.aligned, hbits, ← hbegin, List.append_assoc, List.drop_left,
      List.append_assoc]
  have hread := Takes.mapM Exchange.takes_read exchanges _ _ hunread
  rw [hread, hend, hbegin]
  rfl

/-- What a reader is put to on a trip through sections: a visit to one that lies at some place, or
anything else, which may fail and may lead the cursor anywhere. -/
inductive Stop where
  | visit (exchanges : List Exchange) (place : Nat × Cursor)
  | typed (type : ItemType)
  | zero
  | values (schema : List Kind)
  | seek (position : Nat)
  deriving DecidableEq

namespace Stop

/-- Make the stop; a visit tells what it reads, and the cursor after it. -/
def run : Stop → ReadM Reader (Option (List Item × Cursor))
  | visit exchanges place => do
      modify (Reader.setPosition place.1)
      let items ← exchanges.mapM Exchange.read
      return some (items, (← get).cursor)
  | typed type => do
      attempt (type.read : ReadM Reader Item)
      return none
  | zero => do
      attempt Reader.readZero
      return none
  | values schema => do
      attempt (readValues schema : ReadM Reader (List Value))
      return none
  | seek position => do
      modify (Reader.setPosition position)
      return none

/-- What the stop is to tell: the answers of the section, and the place that it ends at. -/
def told : Stop → Option (List Item × Cursor)
  | visit exchanges place => some (exchanges.map Exchange.answer, place.2)
  | _ => none

/-- Whether a visit is to a section that lies where it is looked for. -/
def Finds (bits : List Bool) : Stop → Prop
  | visit exchanges place => Lies exchanges place bits
  | _ => True

/-- Wherever a reader of the bytes is, a stop tells what it is to, and keeps the bytes. -/
theorem run_ok {w : Writer} (h : w.Sound) (stop : Stop) (hfinds : stop.Finds w.bits) {r : Reader}
    (hr : r.bytes = w.toBytes) :
    ∃ r', stop.run r = .ok stop.told r' ∧ r'.bytes = w.toBytes := by
  cases stop with
  | visit exchanges place =>
      have hvisit := reads_section h hfinds
      rw [← hr] at hvisit ⊢
      exact ⟨⟨r.bytes, place.2⟩, bind_of_ok hvisit, rfl⟩
  | typed type => exact ⟨_, rfl, (Reader.reads_sameBytes.read type r).trans hr⟩
  | zero => exact ⟨_, rfl, (Reader.readZero_sameBytes r).trans hr⟩
  | values schema => exact ⟨_, rfl, (Reader.reads_sameBytes.readValues schema r).trans hr⟩
  | seek position => exact ⟨_, rfl, hr⟩

/-- The stops of a trip, in any order and number, tell what they are to. -/
theorem mapM_run_ok {w : Writer} (h : w.Sound) (trip : List Stop)
    (hfinds : ∀ stop ∈ trip, stop.Finds w.bits) {r : Reader} (hr : r.bytes = w.toBytes) :
    ∃ r', trip.mapM run r = .ok (trip.map told) r' ∧ r'.bytes = w.toBytes := by
  induction trip generalizing r with
  | nil => exact ⟨r, rfl, hr⟩
  | cons stop trip ih =>
      obtain ⟨r', hstop, hr'⟩ := run_ok h stop (hfinds stop List.mem_cons_self) hr
      obtain ⟨r'', htrip, hr''⟩ := ih (fun s hs => hfinds s (List.mem_cons_of_mem stop hs)) hr'
      refine ⟨r'', ?_, hr''⟩
      rw [List.mapM_cons, bind_of_ok hstop, bind_of_ok htrip]
      rfl

end Stop

/-- The reads of `exchanges` answer the writes of a section, for which `place` is on record. -/
def Recorded (sections : List (List Exchange)) (places : List (Nat × Cursor))
    (exchanges : List Exchange) (place : Nat × Cursor) : Prop :=
  ∃ written, (written, place) ∈ sections.zip places ∧
    exchanges.map Exchange.written = written.map Exchange.written

/-- Sections that are each written after an align are read in any order: from the position that align
told, a reader of all the bytes gets the answers of the section and ends where the writer ended it, and
so does every visit of a trip, wherever the reader was before and whatever it did on the way. -/
theorem reads_sections_in_any_order (capacity : Nat) (sections : List (List Exchange))
    (hgranted : AllocationGranted (runOn (Writer.withCapacity capacity)
      (traced Writer.cursor (sections.map Writer.writeSection)))) :
    ∃ places w, runOn (Writer.withCapacity capacity)
        (traced Writer.cursor (sections.map Writer.writeSection)) = .ok (places, w) ∧
      places.length = sections.length ∧
      (∀ exchanges place, Recorded sections places exchanges place →
        exchanges.mapM Exchange.read ⟨w.toBytes, ⟨place.1, .start⟩⟩ =
          .ok (exchanges.map Exchange.answer) ⟨w.toBytes, place.2⟩) ∧
      ∀ (r : Reader) (trip : List Stop), r.bytes = w.toBytes →
        (∀ exchanges place, .visit exchanges place ∈ trip →
          Recorded sections places exchanges place) →
        ∃ r', trip.mapM Stop.run r = .ok (trip.map Stop.told) r' := by
  have hrun := (Writer.withCapacity_delivers capacity).runOn fun w hw =>
    (Writer.traced_writeSection_achieves sections hw.1).mono fun _ _ =>
      And.imp_right And.right
  obtain ⟨⟨places, w⟩, hok, hsound, hlength, hlies⟩ := hrun.exists_ok hgranted
  have hrecorded : ∀ exchanges place, Recorded sections places exchanges place →
      Lies exchanges place w.bits := by
    rintro exchanges place ⟨written, hmem, hwritten⟩
    exact (hlies written place hmem).of_written hwritten
  refine ⟨places, w, hok, hlength, fun exchanges place hplace =>
    reads_section hsound (hrecorded exchanges place hplace), fun r trip hr hvisits => ?_⟩
  have hfinds : ∀ stop ∈ trip, stop.Finds w.bits := by
    intro stop hstop
    cases stop with
    | visit exchanges place => exact hrecorded exchanges place (hvisits exchanges place hstop)
    | typed type => trivial
    | zero => trivial
    | values schema => trivial
    | seek position => trivial
  obtain ⟨r', htrip, -⟩ := Stop.mapM_run_ok hsound trip hfinds hr
  exact ⟨r', htrip⟩

/-- Three sections, of which two end inside of a byte, are visited backwards by a reader that begins
past the end, reads what the second section does not hold, and fails on the way; its last visit reads
the zero of the third section in the other way. -/
theorem reads_sections_backwards :
    ∃ w, runOn (Writer.withCapacity 0) (traced Writer.cursor
        ([[.typed (.word 5), .zeroAsFlag], [.typed (.long (-2))], [.zeroAsWord]].map
          Writer.writeSection)) = .ok ([(0, ⟨1, 1⟩), (2, ⟨4, 0⟩), (4, ⟨4, 1⟩)], w) ∧
      ∃ r', [Stop.zero, .visit [.zeroAsWord] (4, ⟨4, 1⟩), .values [.float64, .uint32],
          .visit [.typed (.long (-2))] (2, ⟨4, 0⟩), .seek 3, .typed .short,
          .visit [.typed (.word 5), .zeroAsFlag] (0, ⟨1, 1⟩),
          .visit [.zeroAsFlag] (4, ⟨4, 1⟩)].mapM Stop.run ⟨w.toBytes, ⟨9, 3⟩⟩ =
        .ok [none, some ([.word 0], ⟨4, 1⟩), none, some ([.long (-2)], ⟨4, 0⟩), none, none,
          some ([.word 5, .bool true], ⟨1, 1⟩), some ([.bool true], ⟨4, 1⟩)] r' := by
  obtain ⟨places, w, hok, -, -, htrip⟩ := reads_sections_in_any_order 0
    [[.typed (.word 5), .zeroAsFlag], [.typed (.long (-2))], [.zeroAsWord]] (by decide +kernel)
  have hplaces : (runOn (Writer.withCapacity 0) (traced Writer.cursor
      ([[.typed (.word 5), .zeroAsFlag], [.typed (.long (-2))], [.zeroAsWord]].map
        Writer.writeSection))).toOption.map Prod.fst =
          some [(0, ⟨1, 1⟩), (2, ⟨4, 0⟩), (4, ⟨4, 1⟩)] := by
    decide +kernel
  rw [hok] at hplaces
  obtain rfl : places = [(0, ⟨1, 1⟩), (2, ⟨4, 0⟩), (4, ⟨4, 1⟩)] := Option.some.inj hplaces
  refine ⟨w, hok, htrip _ _ rfl ?_⟩
  intro exchanges place hvisit
  simp only [List.mem_cons, reduceCtorEq, Stop.visit.injEq, List.not_mem_nil, or_false,
    false_or] at hvisit
  rcases hvisit with ⟨rfl, rfl⟩ | ⟨rfl, rfl⟩ | ⟨rfl, rfl⟩ | ⟨rfl, rfl⟩
  · exact ⟨[.zeroAsWord], by decide, rfl⟩
  · exact ⟨[.typed (.long (-2))], by decide, rfl⟩
  · exact ⟨[.typed (.word 5), .zeroAsFlag], by decide, rfl⟩
  · exact ⟨[.zeroAsWord], by decide, rfl⟩

end WordStream.Sparse
