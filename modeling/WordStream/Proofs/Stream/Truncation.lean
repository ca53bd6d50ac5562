import WordStream.Proofs.Stream.Items
import WordStream.Proofs.Stream.Runs

/-!
# Streams that break off

A source may end inside of what was written.  A read of which not all symbols lie ahead then fails for
the want of more, whatever it is put together from, and stops with less than a whole group unread.  Of
the values of a stream, those whose symbols all lie ahead are read as they were written, and the first
other one fails under the name of its kind.
-/

namespace WordStream

/-! ## Where a cut falls -/

/-- Where a string is cut, it either ends inside of its first part, or has the whole of it. -/
theorem cut_append {β : Type} {kept missing xs ys : List β}
    (h : kept ++ missing = xs ++ ys) :
    (∃ rest, rest ≠ [] ∧ kept ++ rest = xs) ∨ ∃ rest, kept = xs ++ rest ∧ rest ++ missing = ys := by
  rcases List.append_eq_append_iff.mp h with ⟨rest, rfl, hmissing⟩ | ⟨rest, rfl, hys⟩
  · cases rest with
    | nil => exact .inr ⟨[], by simp, hmissing⟩
    | cons symbol rest => exact .inl ⟨symbol :: rest, List.cons_ne_nil _ _, rfl⟩
  · exact .inr ⟨rest, rfl, hys.symm⟩

/-- Where spellings are cut, there is a first one that the cut goes into. -/
theorem cut_flatMap {ι β : Type} {spell : ι → List β} {kept missing : List β} (hne : missing ≠ [])
    (is : List ι) (h : kept ++ missing = is.flatMap spell) :
    ∃ earlier i later rest lacking, is = earlier ++ i :: later ∧
      kept = earlier.flatMap spell ++ rest ∧ lacking ≠ [] ∧ rest ++ lacking = spell i := by
  induction is generalizing kept with
  | nil => exact absurd (List.append_eq_nil_iff.mp h).2 hne
  | cons i is ih =>
      rw [List.flatMap_cons] at h
      rcases cut_append h with ⟨lacking, hlacking, hi⟩ | ⟨rest, rfl, hrest⟩
      · exact ⟨[], i, is, kept, lacking, rfl, rfl, hlacking, hi⟩
      · obtain ⟨earlier, j, later, behind, lacking, rfl, rfl, hlacking, hj⟩ := ih hrest
        exact ⟨i :: earlier, j, later, behind, lacking, rfl, by simp, hlacking, hj⟩

/-- The places of the values before a cut lie within what is left; at the place after them the value
ends that the cut goes into. -/
theorem marks_of_cut {ι γ β : Type} {spell : ι → List β} {place : Nat → γ} {within : γ → Prop}
    {kept : Nat} (earlier : List ι) (i : ι) (later : List ι)
    (hwithin : ∀ n, within (place n) ↔ n ≤ kept) (h : (earlier.flatMap spell).length ≤ kept) :
    let ends := (marks 0 ((earlier ++ i :: later).map spell)).map place
    (∀ p ∈ ends.take earlier.length, within p) ∧
      ends[earlier.length]? = some (place ((earlier.flatMap spell).length + (spell i).length)) ∧
      earlier.zip ends = earlier.zip ((marks 0 (earlier.map spell)).map place) := by
  intro ends
  have hcount : ((marks 0 (earlier.map spell)).map place).length = earlier.length := by simp
  let stop := (earlier.flatMap spell).length + (spell i).length
  have hends : ends = (marks 0 (earlier.map spell)).map place ++
      place stop :: (marks stop (later.map spell)).map place := by
    simp only [ends, stop, List.map_append, List.map_cons, marks_append_cons, Nat.zero_add,
      ← List.flatMap_def]
  rw [hends]
  refine ⟨?_, ?_, ?_⟩
  · intro p hp
    rw [List.take_left' hcount] at hp
    obtain ⟨n, hn, rfl⟩ := List.mem_map.mp hp
    have hbound := le_of_mem_marks hn
    rw [Nat.zero_add, ← List.flatMap_def] at hbound
    exact (hwithin n).mpr (Nat.le_trans hbound h)
  · rw [List.getElem?_append_right (Nat.le_of_eq hcount), hcount, Nat.sub_self]
    rfl
  · calc earlier.zip ((marks 0 (earlier.map spell)).map place ++ _)
        = (earlier ++ []).zip ((marks 0 (earlier.map spell)).map place ++ _) := by
          rw [List.append_nil]
      _ = earlier.zip ((marks 0 (earlier.map spell)).map place) := by
          rw [List.zip_append hcount.symm, List.zip_nil_left, List.append_nil]

/-! ## Reads that a cut stops -/

section Reads

variable {ρ α γ β : Type} [SymbolSource ρ β]

/-- From any source that ends inside of the given symbols, an action fails for the want of more, and
stops inside of the source with less than `width` symbols unread. -/
def Starves (act : ReadM ρ α) (width : Nat) (symbols : List β) : Prop :=
  ∀ r missing, missing ≠ [] → unread r ++ missing = symbols →
    ∃ context n, act r = .error ⟨.unexpectedEnd, context⟩ (skip n r) ∧
      n ≤ (unread r).length ∧ (unread r).length < n + width

theorem Starves.bind {act : ReadM ρ α} {next : α → ReadM ρ γ} {width : Nat} {xs ys : List β} {a : α}
    (h : Starves act width xs) (htakes : Takes act xs a) (hnext : Starves (next a) width ys) :
    Starves (act >>= next) width (xs ++ ys) := by
  intro r missing hne hr
  rcases cut_append hr with ⟨lacking, hlacking, hxs⟩ | ⟨rest, hunread, hys⟩
  · obtain ⟨context, n, hrun, hbounds⟩ := h r lacking hlacking hxs
    exact ⟨context, n, bind_of_error hrun, hbounds⟩
  · have hfirst := htakes r rest hunread
    have hahead := unread_skip_of_append hunread
    obtain ⟨context, n, hrun, hle, hlt⟩ := hnext _ missing hne (by rwa [hahead])
    rw [hahead] at hle hlt
    have hlength : (unread r).length = xs.length + rest.length := by
      rw [hunread, List.length_append]
    refine ⟨context, xs.length + n, ?_, by omega, by omega⟩
    rw [bind_of_ok hfirst, hrun, skip_skip]

theorem Starves.map {act : ReadM ρ α} {width : Nat} {xs : List β} (f : α → γ)
    (h : Starves act width xs) : Starves (act >>= fun a => Pure.pure (f a)) width xs := by
  intro r missing hne hr
  obtain ⟨context, n, hrun, hbounds⟩ := h r missing hne hr
  exact ⟨context, n, bind_of_error hrun, hbounds⟩

end Reads

/-! ## Words and values -/

/-- The readers of a format that fail for the want of more where a word breaks off. -/
class StarvesOnWords (ρ : Type) {β : outParam Type} [SymbolSource ρ β] [WordReader ρ]
    (spelling : outParam (Spelling β)) (width : outParam Nat) : Prop where
  starves_readWord (w : UInt32) : Starves (readWord : ReadM ρ UInt32) width (spelling.word w)

export StarvesOnWords (starves_readWord)

/-- The spelling of a value: that of its words. -/
def Spelling.value {β : Type} (spelling : Spelling β) (v : Value) : List β :=
  spelling.words v.toWords

theorem appends_value {σ β : Type} [SymbolSink σ β] [WordWriter σ] {spelling : Spelling β}
    [WritesSpelling σ spelling] (v : Value) :
    Appends (writeValue v : WriteM σ Unit) (spelling.value v) :=
  appends_writeValue v

section Values

variable {ρ β : Type} [SymbolSource ρ β] [WordReader ρ] {spelling : Spelling β} {width : Nat}
  [ReadsSpelling ρ spelling] [StarvesOnWords ρ spelling width]

omit [ReadsSpelling ρ spelling] in
theorem starves_readWord_words (w : UInt32) :
    Starves (readWord : ReadM ρ UInt32) width (spelling.words [w]) := by
  rw [Spelling.words_singleton]
  exact starves_readWord w

omit [ReadsSpelling ρ spelling] in
theorem starves_readSigned (number : Int32) :
    Starves (readSigned : ReadM ρ Int32) width (spelling.words [zigzag number]) :=
  (starves_readWord_words (zigzag number)).map unzigzag

theorem starves_readDouble (pattern : UInt64) :
    Starves (readDouble : ReadM ρ UInt64) width
      (spelling.words (Value.float64 pattern).toWords) := by
  rw [show (Value.float64 pattern).toWords =
    [reverseBits (lowHalf pattern)] ++ [reverseBits (highHalf pattern)] from rfl,
    Spelling.words_append]
  exact Starves.bind (starves_readWord_words _) (takes_readWord_words _)
    ((starves_readWord_words _).map _)

theorem starves_readLong (number : Int64) :
    Starves (readLong : ReadM ρ Int64) width (spelling.words (Value.int64 number).toWords) := by
  rw [show (Value.int64 number).toWords =
    [zigzag (lowHalf number.toUInt64).toInt32] ++ [zigzag (highHalf number.toUInt64).toInt32]
    from rfl, Spelling.words_append]
  exact Starves.bind (starves_readSigned _) (takes_readSigned _) ((starves_readSigned _).map _)

theorem starves_readKind (v : Value) :
    Starves (readKind v.kind : ReadM ρ Value) width (spelling.words v.toWords) := by
  cases v with
  | uint32 w => exact (starves_readWord_words w).map Value.uint32
  | int32 number => exact (starves_readSigned number).map Value.int32
  | float32 pattern =>
      exact ((starves_readWord_words (reverseBits pattern)).map reverseBits).map Value.float32
  | float64 pattern => exact (starves_readDouble pattern).map Value.float64
  | int64 number => exact (starves_readLong number).map Value.int64

/-- The name of the kind takes the place of the name that a format gives to the failure. -/
theorem readValue_of_cut (v : Value) {r : ρ} {missing : List β} (hne : missing ≠ [])
    (hr : unread r ++ missing = spelling.words v.toWords) :
    ∃ n, (readValue v.kind : ReadM ρ Value) r =
        .error ⟨.unexpectedEnd, v.kind.name⟩ (skip n r) ∧
      n ≤ (unread r).length ∧ (unread r).length < n + width := by
  obtain ⟨context, n, hrun, hbounds⟩ := starves_readKind v r missing hne hr
  refine ⟨n, ?_, hbounds⟩
  simp only [readValue, EStateM.adaptExcept, hrun]
  rfl

omit [StarvesOnWords ρ spelling width] in
theorem takes_value (v : Value) :
    Takes (readValue v.kind : ReadM ρ Value) (spelling.value v) v :=
  takes_readValue v

/-! ## What a reader of values tells of a cut -/

/-- Over a source that a cut has shortened, where `ends` are the places at which the spellings of the
values end: read one by one, the values that end within the source come out as they were written,
each read leaving the reader at the end of its value; the first other value fails for the want of
more, under the name of its kind, and so do all of them read together. -/
def DetectsCut {γ : Type} (report : ρ → γ) (within : γ → Prop) (values : List Value) (ends : List γ)
    (r r' : ρ) : Prop :=
  ∃ earlier v later stop between, values = earlier ++ v :: later ∧
    (∀ place ∈ ends.take earlier.length, within place) ∧
    ends[earlier.length]? = some stop ∧ ¬ within stop ∧
    traced report (earlier.map fun u => readValue u.kind) r = .ok (earlier.zip ends) between ∧
    readValue v.kind between = .error ⟨.unexpectedEnd, v.kind.name⟩ r' ∧
    readValues (values.map Value.kind) r = .error ⟨.unexpectedEnd, v.kind.name⟩ r'

/-- A source that holds the first `kept` symbols of spelled values detects the cut, and stops with less
than `width` symbols unread. -/
theorem detectsCut_of_take {γ : Type} (report : ρ → γ) (place : Nat → γ) (within : γ → Prop)
    {values : List Value} {r : ρ} {kept : Nat} (hkept : kept < (values.flatMap spelling.value).length)
    (hr : unread r = (values.flatMap spelling.value).take kept)
    (hplace : ∀ n, report (skip n r) = place n) (hwithin : ∀ n, within (place n) ↔ n ≤ kept) :
    ∃ n, DetectsCut report within values ((marks 0 (values.map spelling.value)).map place) r
        (skip n r) ∧
      n ≤ kept ∧ kept < n + width := by
  have hmissing : (values.flatMap spelling.value).drop kept ≠ [] := by
    rw [← List.length_pos_iff, List.length_drop]
    omega
  obtain ⟨earlier, v, later, rest, lacking, rfl, hcut, hlacking, hv⟩ :=
    cut_flatMap hmissing values (List.take_append_drop kept _)
  rw [hcut] at hr
  have hlength := congrArg List.length hcut
  have hstopLength := congrArg List.length hv
  have hpos := List.length_pos_iff.mpr hlacking
  rw [List.length_take_of_le (Nat.le_of_lt hkept), List.length_append] at hlength
  rw [List.length_append] at hstopLength
  -- The earlier values are taken; behind them lies the first part of the one that is cut.
  have hbehind := unread_skip_of_append hr
  obtain ⟨m, hfails, hle, hlt⟩ := readValue_of_cut v hlacking (by rwa [hbehind])
  rw [hbehind] at hle hlt
  rw [skip_skip] at hfails
  obtain ⟨hbefore, hstop, hpassed⟩ := marks_of_cut earlier v later hwithin
    (by omega : (earlier.flatMap spelling.value).length ≤ kept)
  have hreads := traced_reads takes_value hplace earlier 0 rest (by rwa [skip_zero])
  have htogether := Takes.mapM takes_value earlier r rest hr
  rw [skip_zero, Nat.zero_add, List.map_id', ← hpassed] at hreads
  rw [List.map_id'] at htogether
  refine ⟨_, ⟨earlier, v, later, _, _, rfl, hbefore, hstop, ?_, hreads, hfails, ?_⟩, by omega,
    by omega⟩
  · rw [hwithin]
    omega
  · rw [readValues, List.mapM_map]
    exact mapM_of_error htogether hfails

end Values

end WordStream
