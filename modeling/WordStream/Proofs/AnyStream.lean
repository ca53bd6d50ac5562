import Mathlib.Data.List.Basic
import WordStream.Proofs.RoundTrip
import WordStream.Proofs.Stream.Simulation

/-!
# Values over any stream

The typed calls ask nothing of a stream but that words are read in the order in which they were written.
Over every stream of this kind, the values of a kind and the words, or pairs of words, correspond one to
one: what a value is written as is read as that value, and any words are read as the one value that is
written as them.
-/

namespace WordStream

/-! ## Values and words -/

/-- How many words a value of the kind is written as. -/
def Kind.wordCount : Kind → Nat
  | uint32 => 1
  | int32 => 1
  | float32 => 1
  | float64 => 2
  | int64 => 2

namespace Value

theorem length_toWords (value : Value) : value.toWords.length = value.kind.wordCount := by
  cases value <;> rfl

/-- As many words as a kind takes are those of a value of the kind. -/
theorem exists_toWords {kind : Kind} {words : List UInt32} (h : words.length = kind.wordCount) :
    ∃ value : Value, value.kind = kind ∧ value.toWords = words := by
  cases kind with
  | uint32 =>
      obtain ⟨word, rfl⟩ := List.length_eq_one_iff.mp h
      exact ⟨.uint32 word, rfl, rfl⟩
  | int32 =>
      obtain ⟨word, rfl⟩ := List.length_eq_one_iff.mp h
      exact ⟨.int32 (unzigzag word), rfl, by simp [toWords]⟩
  | float32 =>
      obtain ⟨word, rfl⟩ := List.length_eq_one_iff.mp h
      exact ⟨.float32 (reverseBits word), rfl, by simp [toWords]⟩
  | float64 =>
      obtain ⟨low, high, rfl⟩ := List.length_eq_two.mp h
      exact ⟨.float64 (joinHalves (reverseBits low) (reverseBits high)), rfl, by simp [toWords]⟩
  | int64 =>
      obtain ⟨low, high, rfl⟩ := List.length_eq_two.mp h
      refine ⟨.int64 (joinHalves (unzigzag low).toUInt32 (unzigzag high).toUInt32).toInt64, rfl, ?_⟩
      simp [toWords]

/-- Reading the words of a value as its kind gives the value, so that no other one has the same words. -/
theorem readValue_toWords (value : Value) :
    (readValue value.kind : ReadM WordQueue Value) ⟨value.toWords⟩ = .ok value ⟨[]⟩ := by
  have hread := takes_readValue (ρ := WordQueue) value ⟨value.toWords⟩ [] (by
    rw [WordQueue.words_spelling, List.append_nil]
    rfl)
  rw [hread, WordQueue.words_spelling]
  exact congrArg (EStateM.Result.ok value) (congrArg WordQueue.mk List.drop_length)

theorem eq_of_toWords_eq {value other : Value} (hkind : value.kind = other.kind)
    (hwords : value.toWords = other.toWords) : value = other := by
  have hread := readValue_toWords value
  rw [hkind, hwords, readValue_toWords other] at hread
  cases hread
  rfl

theorem toWords_float64_iff {pattern : UInt64} {low high : UInt32} :
    (float64 pattern).toWords = [low, high] ↔
      pattern.toNat = 2 ^ 32 * (reverseBits high).toNat + (reverseBits low).toNat := by
  rw [← toNat_joinHalves, UInt64.toNat_inj]
  constructor
  · intro h
    obtain ⟨rfl, rfl⟩ : reverseBits (lowHalf pattern) = low ∧ reverseBits (highHalf pattern) = high := by
      simpa [toWords] using h
    simp
  · rintro rfl
    simp [toWords]

theorem toWords_int64_iff {number : Int64} {low high : UInt32} :
    (int64 number).toWords = [low, high] ↔
      number.toUInt64.toNat =
        2 ^ 32 * (unzigzag high).toUInt32.toNat + (unzigzag low).toUInt32.toNat := by
  rw [← toNat_joinHalves, UInt64.toNat_inj]
  constructor
  · intro h
    obtain ⟨rfl, rfl⟩ : zigzag (lowHalf number.toUInt64).toInt32 = low ∧
        zigzag (highHalf number.toUInt64).toInt32 = high := by
      simpa [toWords] using h
    simp
  · intro h
    simp [toWords, h]

end Value

/-! ## Streams that keep words in order -/

section Readers

variable {ρ α : Type} [WordReader ρ]

/-- Read one by one, just these words come, and lead from `r` to `r'`. -/
def Serves (words : List UInt32) (r r' : ρ) : Prop :=
  words.mapM (fun _ => (readWord : ReadM ρ UInt32)) r = .ok words r'

theorem serves_nil {r r' : ρ} : Serves [] r r' ↔ r = r' := by
  constructor
  · intro h
    cases h
    rfl
  · rintro rfl
    rfl

theorem serves_cons {word : UInt32} {words : List UInt32} {r r' : ρ} :
    Serves (word :: words) r r' ↔
      ∃ m, (readWord : ReadM ρ UInt32) r = .ok word m ∧ Serves words m r' := by
  rw [Serves, List.mapM_cons, bind_eq_ok]
  constructor
  · rintro ⟨first, m, hfirst, hrest⟩
    obtain ⟨others, m', hothers, hall⟩ := bind_eq_ok.mp hrest
    cases hall
    exact ⟨m, hfirst, hothers⟩
  · rintro ⟨m, hfirst, hrest⟩
    exact ⟨word, m, hfirst, bind_eq_ok.mpr ⟨words, r', hrest, rfl⟩⟩

theorem serves_append {us vs : List UInt32} {r r' : ρ} :
    Serves (us ++ vs) r r' ↔ ∃ m, Serves us r m ∧ Serves vs m r' := by
  induction us generalizing r with
  | nil => simp [serves_nil]
  | cons u us ih =>
      simp only [List.cons_append, serves_cons, ih]
      constructor
      · rintro ⟨m, hfirst, m', hus, hvs⟩
        exact ⟨m', ⟨m, hfirst, hus⟩, hvs⟩
      · rintro ⟨m', ⟨m, hfirst, hus⟩, hvs⟩
        exact ⟨m, hfirst, m', hus, hvs⟩

/-- Whatever a read gives of the words of a queue, another one gives of a reader that serves these words,
and it leaves the words that are left in the queue. -/
def Answers (last : ρ) (α : Type) (act : ReadM ρ α) (plain : ReadM WordQueue α) : Prop :=
  ∀ q q' a r, plain q = .ok a q' → Serves q.words r last →
    ∃ r', act r = .ok a r' ∧ Serves q'.words r' last

theorem Answers.sequential (last : ρ) : Sequential (Answers last) where
  pure a := by
    intro q q' _ r hplain hr
    cases hplain
    exact ⟨r, rfl, hr⟩
  bind := by
    intro α γ act plain next next' hact hnext q q'' c r hplain hr
    obtain ⟨a, q', hfirst, hsecond⟩ := bind_eq_ok.mp hplain
    obtain ⟨r', hr', hserves⟩ := hact q q' a r hfirst hr
    obtain ⟨r'', hr'', hserves'⟩ := hnext a q' q'' c r' hsecond hserves
    exact ⟨r'', bind_eq_ok.mpr ⟨a, r', hr', hr''⟩, hserves'⟩

theorem answers_readWord (last : ρ) : Answers last UInt32 readWord readWord := by
  rintro ⟨words⟩ q' word r hplain hr
  cases words with
  | nil => cases hplain
  | cons first rest =>
      cases hplain
      exact serves_cons.mp hr

/-- What failures are reported as makes no difference to a read that gives a value. -/
theorem Answers.adaptExcept {last : ρ} {act : ReadM ρ α} {plain : ReadM WordQueue α}
    (h : Answers last α act plain) (f : DecodeError → DecodeError) :
    Answers last α (act.adaptExcept f) (plain.adaptExcept f) := by
  intro q q' a r hplain hr
  have hinner : plain q = .ok a q' := by
    cases hrun : plain q with
    | ok b m => simpa only [EStateM.adaptExcept, hrun] using hplain
    | error e m => simp [EStateM.adaptExcept, hrun] at hplain
  obtain ⟨r', hr', hserves⟩ := h q q' a r hinner hr
  exact ⟨r', by simp only [EStateM.adaptExcept, hr'], hserves⟩

theorem answers_readValue (last : ρ) (kind : Kind) :
    Answers last Value (readValue kind) (readValue kind) :=
  ((Answers.sequential last).readKind (answers_readWord last) kind).adaptExcept _

/-- A read that uses up the words of a queue gives the same of any reader that serves them. -/
theorem read_of_serves {act : ReadM ρ α} {plain : ReadM WordQueue α}
    (h : ∀ last, Answers last α act plain) {words : List UInt32} {a : α}
    (hplain : plain ⟨words⟩ = .ok a ⟨[]⟩) {r r' : ρ} (hr : Serves words r r') : act r = .ok a r' := by
  obtain ⟨m, hread, hm⟩ := h r' ⟨words⟩ ⟨[]⟩ a r hplain hr
  rwa [serves_nil.mp hm] at hread

/-- A read that computes what it gives from one word. -/
def ReadsWordAs (read : ReadM ρ α) (f : UInt32 → α) : Prop :=
  ∀ r r' word, (readWord : ReadM ρ UInt32) r = .ok word r' → read r = .ok (f word) r'

theorem ReadsWordAs.of_serves {read : ReadM ρ α} {f : UInt32 → α} (h : ReadsWordAs read f)
    {word : UInt32} {r r' : ρ} (hr : Serves [word] r r') : read r = .ok (f word) r' := by
  obtain ⟨m, hword, hm⟩ := serves_cons.mp hr
  rw [serves_nil.mp hm] at hword
  exact h r r' word hword

theorem readsWordAs_map (f : UInt32 → α) :
    ReadsWordAs (readWord >>= fun word => pure (f word) : ReadM ρ α) f :=
  fun _ _ _ hword => bind_of_ok hword

theorem readsWordAs_char : ReadsWordAs (readChar : ReadM ρ UInt16) UInt32.toUInt16 :=
  readsWordAs_map UInt32.toUInt16

theorem readsWordAs_short :
    ReadsWordAs (readShort : ReadM ρ Int16) fun word => (unzigzag word).toInt16 :=
  fun r r' word hword => bind_of_ok (readsWordAs_map unzigzag r r' word hword)

end Readers

/-- A writer of words and the way from it to a reader, which serves first the words that wait, and then
whatever the writer is given, in the same order. -/
structure Channel (σ ρ : Type) [WordWriter σ] [WordReader ρ] where
  writer : σ
  finish : σ → ρ
  waiting : List UInt32
  serves : ∀ words s, writeWords words writer = .ok () s →
    ∃ r, Serves (waiting ++ words) (finish s) r

/-- Booleans and bytes are stored as words, and in no way of their own. -/
structure StoresOnlyWords (σ ρ : Type) [WordWriter σ] [WordReader ρ] : Prop where
  writeBool_eq : ∀ b, (writeBool b : WriteM σ Unit) = writeBoolAsWord writeWord b
  writeByte_eq : ∀ x, (writeByte x : WriteM σ Unit) = writeByteAsWord writeWord x
  readBool_eq : (readBool : ReadM ρ Bool) = readBoolAsWord readWord
  readByte_eq : (readByte : ReadM ρ UInt8) = readByteAsWord readWord

namespace StoresOnlyWords

variable {σ ρ : Type} [WordWriter σ] [WordReader ρ] (h : StoresOnlyWords σ ρ)

include h

theorem readsWordAs_bool : ReadsWordAs (readBool : ReadM ρ Bool) (· != 0) := by
  rw [h.readBool_eq]
  exact readsWordAs_map _

theorem readsWordAs_byte : ReadsWordAs (readByte : ReadM ρ UInt8) UInt32.toUInt8 := by
  rw [h.readByte_eq]
  exact readsWordAs_map _

end StoresOnlyWords

namespace Channel

variable {σ ρ α : Type} [WordWriter σ] [WordReader ρ]

/-- What `write` writes, `read` reads as `a`, between the words that wait and those that are written
later. -/
def ReadsBack (channel : Channel σ ρ) (write : WriteM σ Unit) (read : ReadM ρ α) (a : α) : Prop :=
  ∀ later s s', write channel.writer = .ok () s → writeWords later s = .ok () s' →
    ∃ r r' r'', Serves channel.waiting (channel.finish s') r ∧ read r = .ok a r' ∧
      Serves later r' r''

theorem writeWords_append (us vs : List UInt32) :
    (writeWords (us ++ vs) : WriteM σ Unit) = writeWords us >>= fun _ => writeWords vs :=
  List.forM_append

theorem readsBack_words (channel : Channel σ ρ) {words : List UInt32} {read : ReadM ρ α} {a : α}
    (hread : ∀ r r', Serves words r r' → read r = .ok a r') :
    channel.ReadsBack (writeWords words) read a := by
  intro later s s' hwords hlater
  have hall : writeWords (words ++ later) channel.writer = .ok () s' := by
    rw [writeWords_append]
    exact bind_eq_ok.mpr ⟨(), s, hwords, hlater⟩
  -- What the reader serves falls into what waits, what is asked for, and what was written later.
  obtain ⟨r'', hserves⟩ := channel.serves (words ++ later) s' hall
  obtain ⟨r, hwaiting, hrest⟩ := serves_append.mp hserves
  obtain ⟨r', hmiddle, hlast⟩ := serves_append.mp hrest
  exact ⟨r, r', r'', hwaiting, hread r r' hmiddle, hlast⟩

theorem readsBack_value (channel : Channel σ ρ) (value : Value) :
    channel.ReadsBack (writeValue value) (readValue value.kind) value :=
  channel.readsBack_words fun _ _ hr =>
    read_of_serves (fun last => answers_readValue last value.kind) value.readValue_toWords hr

theorem readsBack_word (channel : Channel σ ρ) {read : ReadM ρ α} {f : UInt32 → α}
    (hread : ReadsWordAs read f) (word : UInt32) :
    channel.ReadsBack (writeWord word) read (f word) := by
  have hback : channel.ReadsBack (writeWords [word]) read (f word) :=
    channel.readsBack_words fun _ _ hr => hread.of_serves hr
  intro later s s' hwrite hlater
  exact hback later s s' (bind_eq_ok.mpr ⟨(), s, hwrite, rfl⟩) hlater

theorem readsBack_short (channel : Channel σ ρ) (number : Int16) :
    channel.ReadsBack (writeShort number) readShort number := by
  have hnumber : (unzigzag (zigzag number.toInt32)).toInt16 = number := by
    rw [unzigzag_zigzag, Int16.toInt16_toInt32]
  refine channel.readsBack_words fun r r' hr => ?_
  rw [readsWordAs_short.of_serves hr, hnumber]

end Channel

/-! ## Queues and formats as channels -/

/-- A queue serves its words, and then those that are put behind them. -/
theorem WordQueue.serves_words (words : List UInt32) : Serves words (⟨words⟩ : WordQueue) ⟨[]⟩ := by
  induction words with
  | nil => exact serves_nil.mpr rfl
  | cons word words ih => exact serves_cons.mpr ⟨⟨words⟩, rfl, ih⟩

/-- A queue is the writer and the reader of a channel, in which its words wait. -/
def WordQueue.channel (q : WordQueue) : Channel WordQueue WordQueue where
  writer := q
  finish := id
  waiting := q.words
  serves words s h := by
    have hok := WordQueue.forM_ok (fun word => [word]) (fun _ _ => rfl) words q
    rw [List.flatMap_singleton'] at hok
    cases hok.symm.trans h
    exact ⟨_, WordQueue.serves_words _⟩

/-- The words written in a format are served by its reader. -/
theorem serves_of_unread {ρ β : Type} [SymbolSource ρ β] [WordReader ρ] {spelling : Spelling β}
    [ReadsSpelling ρ spelling] {words : List UInt32} {r : ρ} {rest : List β}
    (h : unread r = spelling.words words ++ rest) : ∃ r', Serves words r r' := by
  have htakes := Takes.mapM (fun word => takes_readWord (ρ := ρ) word) words r rest h
  rw [List.map_id'] at htakes
  exact ⟨_, htakes⟩

/-- In any format, a valid writer and the reader of what it has written make a channel. -/
def Follows.channel {σ ρ β γ : Type} [SymbolSink σ β] [SymbolSource ρ β] [WordWriter σ] [WordReader ρ]
    {spelling : Spelling β} [WritesSpelling σ spelling] [ReadsSpelling ρ spelling]
    {writerPlace : σ → γ} {readerPlace : ρ → γ} {place : Nat → γ} {finish : σ → ρ}
    (h : Follows writerPlace readerPlace place finish) {s : σ} (hs : Valid s) {words : List UInt32}
    (hwritten : written s = spelling.words words) : Channel σ ρ where
  writer := s
  finish := finish
  waiting := words
  serves later s' hlater := by
    obtain ⟨hs', hwritten'⟩ := (appends_writeWords later s hs).post_of_ok hlater
    obtain ⟨rest, hrest⟩ := h.unread_finish s' hs'
    rw [hwritten', hwritten, ← Spelling.words_append] at hrest
    exact serves_of_unread hrest

/-- A writer that has written nothing yet makes a channel in which nothing waits. -/
theorem Follows.exists_channel {σ ρ β γ : Type} [SymbolSink σ β] [SymbolSource ρ β] [WordWriter σ]
    [WordReader ρ] {spelling : Spelling β} [WritesSpelling σ spelling] [ReadsSpelling ρ spelling]
    {writerPlace : σ → γ} {readerPlace : ρ → γ} {place : Nat → γ} {finish : σ → ρ}
    (h : Follows writerPlace readerPlace place finish) {start : Except Fault σ}
    (hstart : Delivers start fun s => Valid s ∧ written s = []) {s : σ} (hs : start = .ok s) :
    ∃ channel : Channel σ ρ,
      channel.writer = s ∧ channel.finish = finish ∧ channel.waiting = [] := by
  rw [hs] at hstart
  have hnothing : written s = spelling.words [] := hstart.2
  exact ⟨h.channel hstart.1 hnothing, rfl, rfl, rfl⟩

/-! ## The correspondence -/

/-- Over any channel, a value is read back bit for bit as its kind, and any words of the number that a kind
takes are read as a value of that kind, which is written as just these words; no two values of a kind share
their words, and in those of a double word the low half comes first.  A channel that stores only words gives
back booleans, bytes, characters and short numbers, and reads any of these from any word. -/
theorem Channel.values_and_words_correspond {σ ρ : Type} [WordWriter σ] [WordReader ρ]
    (channel : Channel σ ρ) :
    (∀ value : Value, value.toWords.length = value.kind.wordCount ∧
      channel.ReadsBack (writeValue value) (readValue value.kind) value) ∧
    (∀ (kind : Kind) (words : List UInt32), words.length = kind.wordCount →
      ∃ value : Value, value.kind = kind ∧
        channel.ReadsBack (writeWords words) (readValue kind) value ∧
        (writeValue value : WriteM σ Unit) = writeWords words ∧
        ∀ q : WordQueue, writeValue value q = .ok () ⟨q.words ++ words⟩) ∧
    (∀ value other : Value, value.kind = other.kind → value.toWords = other.toWords → value = other) ∧
    (∀ low high pattern, (Value.float64 pattern).toWords = [low, high] ↔
      pattern.toNat = 2 ^ 32 * (reverseBits high).toNat + (reverseBits low).toNat) ∧
    (∀ low high number, (Value.int64 number).toWords = [low, high] ↔
      number.toUInt64.toNat =
        2 ^ 32 * (unzigzag high).toUInt32.toNat + (unzigzag low).toUInt32.toNat) ∧
    (StoresOnlyWords σ ρ →
      (∀ b, channel.ReadsBack (writeBool b) readBool b) ∧
      (∀ x, channel.ReadsBack (writeByte x) readByte x) ∧
      ∀ word, channel.ReadsBack (writeWord word) readBool (word != 0) ∧
        ∃ x, channel.ReadsBack (writeWord word) readByte x ∧ x.toNat = word.toNat % 2 ^ 8) ∧
    (∀ unit, channel.ReadsBack (writeChar unit) readChar unit) ∧
    (∀ number, channel.ReadsBack (writeShort number) readShort number) ∧
    ∀ word,
      (∃ unit, channel.ReadsBack (writeWord word) readChar unit ∧
        unit.toNat = word.toNat % 2 ^ 16) ∧
      ∃ number, channel.ReadsBack (writeWord word) readShort number ∧
        number.toInt = (unzigzag word).toInt.bmod (2 ^ 16) := by
  refine ⟨fun value => ⟨value.length_toWords, channel.readsBack_value value⟩, fun kind words hwords => ?_,
    fun _ _ hkind hsame => Value.eq_of_toWords_eq hkind hsame, fun _ _ _ => Value.toWords_float64_iff,
    fun _ _ _ => Value.toWords_int64_iff, fun hstores => ⟨fun b => ?_, fun x => ?_, fun word => ⟨?_, ?_⟩⟩,
    fun unit => ?_, fun number => ?_, fun word => ⟨?_, ?_⟩⟩
  · obtain ⟨value, rfl, rfl⟩ := Value.exists_toWords hwords
    exact ⟨value, rfl, channel.readsBack_value value, rfl, WordQueue.writeValue_ok value⟩
  · have hback := channel.readsBack_word hstores.readsWordAs_bool b.toUInt32
    rw [hstores.writeBool_eq]
    cases b <;> exact hback
  · have hback := channel.readsBack_word hstores.readsWordAs_byte x.toUInt32
    rw [UInt8.toUInt8_toUInt32] at hback
    rw [hstores.writeByte_eq]
    exact hback
  · exact channel.readsBack_word hstores.readsWordAs_bool word
  · exact ⟨_, channel.readsBack_word hstores.readsWordAs_byte word, UInt32.toNat_toUInt8 word⟩
  · have hback := channel.readsBack_word readsWordAs_char unit.toUInt32
    rw [UInt16.toUInt16_toUInt32] at hback
    exact hback
  · exact channel.readsBack_short number
  · exact ⟨_, channel.readsBack_word readsWordAs_char word, UInt32.toNat_toUInt16 word⟩
  · exact ⟨_, channel.readsBack_word readsWordAs_short word, Int32.toInt_toInt16 (unzigzag word)⟩

theorem WordQueue.storesOnlyWords : StoresOnlyWords WordQueue WordQueue :=
  ⟨fun _ => rfl, fun _ => rfl, rfl, rfl⟩

/-- A sparse stream has no way of its own for booleans and bytes. -/
theorem Sparse.storesOnlyWords : StoresOnlyWords Writer Reader :=
  ⟨fun _ => rfl, fun _ => rfl, rfl, rfl⟩

/-- A long and a boolean between the words of a queue, and a boolean and a byte in a sparse stream that had
no room at all. -/
theorem long_between_queued_words :
    (∃ r r' r'' : WordQueue, Serves [7] ⟨[7, 5, 1, 9]⟩ r ∧
      readValue .int64 r = .ok (.int64 (-3)) r' ∧ Serves [9] r' r'') ∧
    (∃ value : Value, value.kind = .float64 ∧
      (WordQueue.channel ⟨[7]⟩).ReadsBack (writeWords [3, 0]) (readValue .float64) value ∧
      (writeValue value : WriteM WordQueue Unit) = writeWords [3, 0]) ∧
    (∃ r r' r'' : WordQueue, Serves [7] ⟨[7, 1, 9]⟩ r ∧ readBool r = .ok true r' ∧ Serves [9] r' r'') ∧
    (WordQueue.channel ⟨[7]⟩).ReadsBack (writeWord 256) readBool true ∧
    ∃ channel : Channel Sparse.Writer Sparse.Reader, Sparse.Writer.withCapacity 0 = .ok channel.writer ∧
      channel.waiting = [] ∧ channel.ReadsBack (writeBool true) readBool true ∧
      channel.ReadsBack (writeByte 254) readByte 254 := by
  obtain ⟨hvalues, hwords, -, -, -, hnarrow, -⟩ := (WordQueue.channel ⟨[7]⟩).values_and_words_correspond
  obtain ⟨hbool, -, hword⟩ := hnarrow WordQueue.storesOnlyWords
  refine ⟨(hvalues (.int64 (-3))).2 [9] ⟨[7, 5, 1]⟩ ⟨[7, 5, 1, 9]⟩ (by rfl) (by rfl), ?_,
    hbool true [9] ⟨[7, 1]⟩ ⟨[7, 1, 9]⟩ (by rfl) (by rfl), (hword 256).1, ?_⟩
  · obtain ⟨value, hkind, hback, hwrite, -⟩ := hwords .float64 [3, 0] rfl
    exact ⟨value, hkind, hback, hwrite⟩
  · have hstart := Sparse.Writer.withCapacity_delivers 0
    obtain ⟨w, hok, -⟩ := hstart.exists_ok (by decide +kernel)
    obtain ⟨channel, rfl, -, hwaiting⟩ := Sparse.reader_follows.exists_channel hstart hok
    obtain ⟨-, -, -, -, -, hnarrow, -⟩ := channel.values_and_words_correspond
    obtain ⟨hbool, hbyte, -⟩ := hnarrow Sparse.storesOnlyWords
    exact ⟨channel, hok, hwaiting, hbool true, hbyte 254⟩

end WordStream
