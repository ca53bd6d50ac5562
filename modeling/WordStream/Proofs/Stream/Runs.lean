import WordStream.Proofs.Stream.Symbols

/-!
# Runs of calls

A run makes calls one after the other and reports on the state after each.  What a run of writes
appends, the run of the answering reads takes off again, call by call, and both runs come past the
same places on the way.
-/

namespace WordStream

/-- Make calls one after the other; tell what each gives, and report on the state that it leaves. -/
def traced {ε σ α γ : Type} (report : σ → γ) :
    List (EStateM ε σ α) → EStateM ε σ (List (α × γ))
  | [] => return []
  | call :: calls => do
      let a ← call
      let shown := report (← get)
      return (a, shown) :: (← traced report calls)

/-- How many symbols have passed after each of some strings, when `n` have passed before. -/
def marks {β : Type} : Nat → List (List β) → List Nat
  | _, [] => []
  | n, symbols :: rest => (n + symbols.length) :: marks (n + symbols.length) rest

@[simp] theorem length_marks {β : Type} (n : Nat) (strings : List (List β)) :
    (marks n strings).length = strings.length := by
  induction strings generalizing n with
  | nil => rfl
  | cons symbols rest ih => rw [marks, List.length_cons, List.length_cons, ih]

theorem marks_append {β : Type} (n : Nat) (xs ys : List (List β)) :
    marks n (xs ++ ys) = marks n xs ++ marks (n + xs.flatten.length) ys := by
  induction xs generalizing n with
  | nil => rfl
  | cons symbols rest ih =>
      rw [List.cons_append, marks, marks, ih, List.flatten_cons, List.length_append, ← Nat.add_assoc]
      rfl

theorem marks_append_cons {β : Type} (n : Nat) (earlier : List (List β)) (symbols : List β)
    (later : List (List β)) :
    marks n (earlier ++ symbols :: later) =
      marks n earlier ++ (n + earlier.flatten.length + symbols.length) ::
        marks (n + earlier.flatten.length + symbols.length) later := by
  rw [marks_append, marks]

theorem le_of_mem_marks {β : Type} {n m : Nat} {strings : List (List β)} (h : m ∈ marks n strings) :
    m ≤ n + strings.flatten.length := by
  induction strings generalizing n with
  | nil => exact absurd h List.not_mem_nil
  | cons symbols rest ih =>
      rw [List.flatten_cons, List.length_append, ← Nat.add_assoc]
      rcases List.mem_cons.mp h with rfl | hrest
      · exact Nat.le_add_right _ _
      · exact ih hrest

theorem Achieves.traced_cons {σ α γ : Type} {report : σ → γ} {call : WriteM σ α}
    {calls : List (WriteM σ α)} {s : σ} {post : List (α × γ) → σ → Prop}
    (h : Achieves call s fun a s' =>
      Achieves (traced report calls) s' fun rest => post ((a, report s') :: rest)) :
    Achieves (traced report (call :: calls)) s post := by
  refine h.bind fun a s' hrest => ?_
  change Achieves (traced report calls >>= fun rest => Pure.pure ((a, report s') :: rest)) s' post
  exact hrest.bind fun rest s'' hpost => Achieves.pure hpost

theorem traced_cons_ok {ε σ α γ : Type} (report : σ → γ) {call : EStateM ε σ α}
    {calls : List (EStateM ε σ α)} {s s' s'' : σ} {a : α} {rest : List (α × γ)}
    (hcall : call s = .ok a s') (hrest : traced report calls s' = .ok rest s'') :
    traced report (call :: calls) s = .ok ((a, report s') :: rest) s'' := by
  rw [traced, bind_of_ok hcall]
  change (traced report calls >>= fun rest => Pure.pure ((a, report s') :: rest)) s' = _
  rw [bind_of_ok hrest]
  rfl

/-- A run that ends has made its first call, and the other ones after it. -/
theorem exists_of_traced_cons {ε σ α γ : Type} {report : σ → γ} {call : EStateM ε σ α}
    {calls : List (EStateM ε σ α)} {s s'' : σ} {shown : List (α × γ)}
    (h : traced report (call :: calls) s = .ok shown s'') :
    ∃ a s' rest, call s = .ok a s' ∧ traced report calls s' = .ok rest s'' ∧
      shown = (a, report s') :: rest := by
  obtain ⟨a, s', hcall, hnext⟩ := bind_eq_ok.mp h
  change (traced report calls >>= fun rest => Pure.pure ((a, report s') :: rest)) s' = _ at hnext
  obtain ⟨rest, t, hrest, hlast⟩ := bind_eq_ok.mp hnext
  cases hlast
  exact ⟨a, s', rest, hcall, hrest, rfl⟩

section RoundTrip

variable {σ ρ α β γ ι : Type} [SymbolSink σ β] [SymbolSource ρ β] {spell : ι → List β}
  {place : Nat → γ}

/-- A run of writes appends every spelling and comes past the marks between them. -/
theorem achieves_traced {write : ι → WriteM σ Unit} (hwrite : ∀ i, Appends (write i) (spell i))
    {report : σ → γ} (hplace : ∀ s : σ, Valid s → report s = place (written s).length)
    (is : List ι) (s : σ) (hs : Valid s) :
    Achieves (traced report (is.map write)) s fun shown s' =>
      Valid s' ∧ written s' = written s ++ is.flatMap spell ∧
        shown.map Prod.snd = (marks (written s).length (is.map spell)).map place := by
  -- Induction on the calls, from any valid state: what the first one appends moves every mark on.
  induction is generalizing s with
  | nil => exact Achieves.pure ⟨hs, by simp, rfl⟩
  | cons i is ih =>
      refine Achieves.traced_cons ?_
      refine (hwrite i s hs).mono ?_
      rintro _ s' ⟨hs', hwritten⟩
      refine (ih s' hs').mono fun shown s'' ⟨hs'', hwritten', hshown⟩ => ⟨hs'', ?_, ?_⟩
      · rw [hwritten', hwritten, List.flatMap_cons, List.append_assoc]
      · have hlength : (written s').length = (written s).length + (spell i).length := by
          rw [hwritten, List.length_append]
        rw [List.map_cons, hshown, hplace s' hs', hlength]
        rfl

/-- A run of reads over the spellings gives every answer and comes past the same marks. -/
theorem traced_reads {read : ι → ReadM ρ α} {answer : ι → α}
    (hread : ∀ i, Takes (read i) (spell i) (answer i)) {report : ρ → γ} {r : ρ}
    (hplace : ∀ n, report (skip n r) = place n) (is : List ι) (n : Nat) (rest : List β)
    (hr : unread (skip n r) = is.flatMap spell ++ rest) :
    traced report (is.map read) (skip n r) =
      .ok ((is.map answer).zip ((marks n (is.map spell)).map place))
        (skip (n + (is.flatMap spell).length) r) := by
  -- Induction on the calls, from any number of symbols read: the reader is never looked into.
  induction is generalizing n with
  | nil => rfl
  | cons i is ih =>
      rw [List.flatMap_cons, List.append_assoc] at hr
      have hcall := hread i (skip n r) (is.flatMap spell ++ rest) hr
      have hunread : unread (skip (n + (spell i).length) r) = is.flatMap spell ++ rest := by
        rw [← skip_skip]
        exact unread_skip_of_append hr
      rw [skip_skip] at hcall
      have hrun := traced_cons_ok report hcall (ih _ hunread)
      rw [hplace] at hrun
      rw [List.flatMap_cons, List.length_append, ← Nat.add_assoc]
      exact hrun

/-- From a new state, and unless it is refused an allocation, a run of writes leaves all spellings, one
after the other, and comes past the marks between them. -/
theorem exists_runOn_traced (place : Nat → γ) {write : ι → WriteM σ Unit}
    (hwrite : ∀ i, Appends (write i) (spell i)) {report : σ → γ}
    (hplace : ∀ s : σ, Valid s → report s = place (written s).length)
    {start : Except Fault σ} (hstart : Delivers start fun s => Valid s ∧ written s = [])
    (is : List ι) (hgranted : AllocationGranted (runOn start (traced report (is.map write)))) :
    ∃ writes s, runOn start (traced report (is.map write)) = .ok (writes, s) ∧ Valid s ∧
      written s = is.flatMap spell ∧
      writes.map Prod.snd = (marks 0 (is.map spell)).map place := by
  have hrun := hstart.runOn fun s hs =>
    (achieves_traced hwrite hplace is s hs.1).mono fun shown s' hpost => by
      rw [hs.2, List.nil_append, List.length_nil] at hpost
      exact hpost
  obtain ⟨⟨writes, s⟩, hok, hs⟩ := hrun.exists_ok hgranted
  exact ⟨writes, s, hok, hs⟩

/-- The reader made of a writer begins with all that was written, and both tell their place by the
number of symbols that they have passed. -/
structure Follows (writerPlace : σ → γ) (readerPlace : ρ → γ) (place : Nat → γ)
    (finish : σ → ρ) : Prop where
  unread_finish : ∀ s : σ, Valid s → ∃ rest, unread (finish s) = written s ++ rest
  place_writer : ∀ s : σ, Valid s → writerPlace s = place (written s).length
  place_reader : ∀ (s : σ) (n : Nat), readerPlace (skip n (finish s)) = place n

/-- What a run of writes has written is read back by the answering reads, and after each call the
reader is where the writer was. -/
theorem Follows.reads_back {writerPlace : σ → γ} {readerPlace : ρ → γ} {finish : σ → ρ}
    (h : Follows writerPlace readerPlace place finish) {write : ι → WriteM σ Unit}
    {read : ι → ReadM ρ α} {answer : ι → α} (hwrite : ∀ i, Appends (write i) (spell i))
    (hread : ∀ i, Takes (read i) (spell i) (answer i)) {start : Except Fault σ}
    (hstart : Delivers start fun s => Valid s ∧ written s = []) (is : List ι)
    (hgranted : AllocationGranted (runOn start (traced writerPlace (is.map write)))) :
    ∃ writes s reads, runOn start (traced writerPlace (is.map write)) = .ok (writes, s) ∧
      Valid s ∧ traced readerPlace (is.map read) (finish s) =
        .ok reads (skip (written s).length (finish s)) ∧
      reads.map Prod.fst = is.map answer ∧ reads.map Prod.snd = writes.map Prod.snd := by
  obtain ⟨writes, s, hok, hs, hwritten, hshown⟩ :=
    exists_runOn_traced place hwrite h.place_writer hstart is hgranted
  obtain ⟨rest, hrest⟩ := h.unread_finish s hs
  have hreads := traced_reads hread (h.place_reader s) is 0 rest
    (by rw [skip_zero, hrest, hwritten])
  rw [skip_zero, Nat.zero_add, ← hwritten] at hreads
  have hlength : (is.map answer).length = ((marks 0 (is.map spell)).map place).length := by simp
  refine ⟨writes, s, _, hok, hs, hreads, ?_, ?_⟩
  · exact List.map_fst_zip (Nat.le_of_eq hlength)
  · rw [List.map_snd_zip (Nat.le_of_eq hlength.symm), hshown]

end RoundTrip

end WordStream
