import WordStream.Proofs.Stream.Composition
import WordStream.Proofs.Stream.Symbols
import WordStream.Stream.WordQueue

/-!
# Readers over the same words

What a typed read gives depends on the words ahead and on nothing else of the format.  Two readers
with the same words ahead, in whatever spelling, stay in step under any reads, whether or not these
are the ones that the words were written for, and fail together when the words run out.
-/

namespace WordStream

/-- What a read gives, without the source that it leaves. -/
def outcome {ε σ α : Type} : EStateM.Result ε σ α → Except ε α
  | .ok a _ => .ok a
  | .error e _ => .error e

section Pairs

variable {ρ ρ' α β : Type}

/-- From sources related by `rel`, two reads give the same value or errors related by `agree`, and
leave related sources. -/
def InStep (rel : ρ → ρ' → Prop) (agree : DecodeError → DecodeError → Prop) (act : ReadM ρ α)
    (act' : ReadM ρ' α) : Prop :=
  ∀ r r', rel r r' →
    (∃ a s s', act r = .ok a s ∧ act' r' = .ok a s' ∧ rel s s') ∨
      ∃ e e' s s', act r = .error e s ∧ act' r' = .error e' s' ∧ agree e e' ∧ rel s s'

variable {rel : ρ → ρ' → Prop} {agree : DecodeError → DecodeError → Prop}

namespace InStep

theorem pure (a : α) : InStep rel agree (Pure.pure a : ReadM ρ α) (Pure.pure a : ReadM ρ' α) :=
  fun r r' h => .inl ⟨a, r, r', rfl, rfl, h⟩

theorem bind {act : ReadM ρ α} {act' : ReadM ρ' α} {next : α → ReadM ρ β}
    {next' : α → ReadM ρ' β} (h : InStep rel agree act act')
    (hnext : ∀ a, InStep rel agree (next a) (next' a)) :
    InStep rel agree (act >>= next) (act' >>= next') := by
  intro r r' hr
  rcases h r r' hr with ⟨a, s, s', hact, hact', hs⟩ | ⟨e, e', s, s', hact, hact', he, hs⟩
  · rw [bind_of_ok hact, bind_of_ok hact']
    exact hnext a s s' hs
  · exact .inr ⟨e, e', s, s', bind_of_error hact, bind_of_error hact', he, hs⟩

theorem throw {e e' : DecodeError} (h : agree e e') :
    InStep rel agree (throw e : ReadM ρ α) (throw e' : ReadM ρ' α) :=
  fun r r' hr => .inr ⟨e, e', r, r', rfl, rfl, h, hr⟩

theorem compositional (hagree : ∀ e, agree e e) :
    Compositional fun α (act : ReadM ρ α) (act' : ReadM ρ' α) => InStep rel agree act act' :=
  ⟨⟨pure, bind⟩, fun e => throw (hagree e)⟩

theorem adaptExcept {act : ReadM ρ α} {act' : ReadM ρ' α} {f : DecodeError → DecodeError}
    {agree' : DecodeError → DecodeError → Prop} (h : InStep rel agree act act')
    (hf : ∀ e e', agree e e' → agree' (f e) (f e')) :
    InStep rel agree' (act.adaptExcept f) (act'.adaptExcept f) := by
  intro r r' hr
  rcases h r r' hr with ⟨a, s, s', hact, hact', hs⟩ | ⟨e, e', s, s', hact, hact', he, hs⟩
  · exact .inl ⟨a, s, s', by simp only [EStateM.adaptExcept, hact],
      by simp only [EStateM.adaptExcept, hact'], hs⟩
  · exact .inr ⟨f e, f e', s, s', by simp only [EStateM.adaptExcept, hact],
      by simp only [EStateM.adaptExcept, hact'], hf e e' he, hs⟩

theorem outcome_eq {act : ReadM ρ α} {act' : ReadM ρ' α} (h : InStep rel Eq act act') {r : ρ}
    {r' : ρ'} (hr : rel r r') : outcome (act r) = outcome (act' r') := by
  rcases h r r' hr with ⟨a, s, s', hact, hact', -⟩ | ⟨e, e', s, s', hact, hact', rfl, -⟩
  · rw [hact, hact', outcome, outcome]
  · rw [hact, hact', outcome, outcome]

end InStep

end Pairs

section Spellings

variable {ρ ρ' β β' : Type} [SymbolSource ρ β] [SymbolSource ρ' β'] [WordReader ρ] [WordReader ρ']
  {spelling : Spelling β} {spelling' : Spelling β'} [ReadsSpelling ρ spelling]
  [ReadsSpelling ρ' spelling']

/-- The same words lie ahead in two sources, each in its own spelling. -/
def SameWords (spelling : Spelling β) (spelling' : Spelling β') (r : ρ) (r' : ρ') : Prop :=
  ∃ ws, unread r = spelling.words ws ∧ unread r' = spelling'.words ws

/-- Errors of the same cause, whatever each was reported under. -/
def SameCause (e e' : DecodeError) : Prop := e.cause = e'.cause

theorem readWord_inStep :
    InStep (SameWords spelling spelling') SameCause (readWord : ReadM ρ UInt32)
      (readWord : ReadM ρ' UInt32) := by
  rintro r r' ⟨ws, hr, hr'⟩
  -- Over spelled words a read can fail only where they end.
  cases ws with
  | nil =>
      obtain ⟨context, hread⟩ := readWord_of_unread_nil r hr
      obtain ⟨context', hread'⟩ := readWord_of_unread_nil r' hr'
      exact .inr ⟨_, _, r, r', hread, hread', rfl, [], hr, hr'⟩
  | cons w ws =>
      exact .inl ⟨w, _, _, takes_readWord w r _ hr, takes_readWord w r' _ hr', ws,
        unread_skip_of_append hr, unread_skip_of_append hr'⟩

theorem readKind_inStep (kind : Kind) :
    InStep (SameWords spelling spelling') SameCause (readKind kind : ReadM ρ Value)
      (readKind kind : ReadM ρ' Value) :=
  (InStep.compositional fun e => (rfl : e.cause = e.cause)).readKind readWord_inStep kind

/-- The name of the kind takes the place of the name that a format gives to a failure. -/
theorem readValue_inStep (kind : Kind) :
    InStep (SameWords spelling spelling') Eq (readValue kind : ReadM ρ Value)
      (readValue kind : ReadM ρ' Value) := by
  refine (readKind_inStep kind).adaptExcept fun e e' h => ?_
  have hcause : e.cause = e'.cause := h
  rw [DecodeError.withContext, DecodeError.withContext, hcause]

/-- Any schema gives the same over the same words, whatever their spelling. -/
theorem outcome_readValues (schema : List Kind) {r : ρ} {r' : ρ'}
    (h : SameWords spelling spelling' r r') :
    outcome ((readValues schema : ReadM ρ (List Value)) r) =
      outcome ((readValues schema : ReadM ρ' (List Value)) r') :=
  ((InStep.compositional fun _ => rfl).mapM readValue readValue readValue_inStep schema).outcome_eq h

end Spellings

/-! ## The plainest spelling -/

namespace WordQueue

/-- A queue spells a word by the word itself. -/
def spelling : Spelling UInt32 := ⟨fun w => [w], fun x => [x.toUInt32]⟩

theorem words_spelling (ws : List UInt32) : spelling.words ws = ws :=
  List.flatMap_singleton' ws

instance : SymbolSource WordQueue UInt32 where
  unread q := q.words
  skip n q := ⟨q.words.drop n⟩
  skip_zero _ := rfl
  skip_skip m n q := by simp [List.drop_drop]
  unread_skip _ _ := rfl

/-- Writes that each add some words at the back add all of them, one after the other. -/
theorem forM_ok {ι : Type} {write : ι → WriteM WordQueue Unit} (words : ι → List UInt32)
    (h : ∀ i q, write i q = .ok () ⟨q.words ++ words i⟩) (is : List ι) (q : WordQueue) :
    is.forM write q = .ok () ⟨q.words ++ is.flatMap words⟩ := by
  induction is generalizing q with
  | nil =>
      rw [List.flatMap_nil, List.append_nil]
      rfl
  | cons i is ih =>
      change (write i >>= fun _ => is.forM write) q = _
      rw [bind_of_ok (h i q), ih, List.flatMap_cons, List.append_assoc]

theorem writeValue_ok (value : Value) (q : WordQueue) :
    writeValue value q = .ok () ⟨q.words ++ value.toWords⟩ := by
  have h := forM_ok (fun w => [w]) (fun w q => rfl) value.toWords q
  rwa [List.flatMap_singleton'] at h

/-- A queue never refuses a write. -/
theorem writeValues_ok (values : List Value) (q : WordQueue) :
    writeValues values q = .ok () ⟨q.words ++ values.flatMap Value.toWords⟩ :=
  forM_ok Value.toWords writeValue_ok values q

theorem takes_pop (w : UInt32) : Takes (readWord : ReadM WordQueue UInt32) [w] w := by
  intro q rest hq
  have hq' : q = ⟨w :: rest⟩ := congrArg WordQueue.mk hq
  rw [hq']
  rfl

instance : ReadsSpelling WordQueue spelling where
  takes_readWord := takes_pop
  takes_readBool b := by
    have h := Takes.map (· != 0) (takes_pop b.toUInt8.toUInt32)
    cases b
    · exact h
    · exact h
  takes_readByte x := by
    have h := Takes.map UInt32.toUInt8 (takes_pop x.toUInt32)
    rwa [UInt8.toUInt8_toUInt32] at h
  readWord_of_unread_nil q hq := by
    have hq' : q = ⟨[]⟩ := congrArg WordQueue.mk hq
    rw [hq']
    exact ⟨"words", rfl⟩

end WordQueue

end WordStream
