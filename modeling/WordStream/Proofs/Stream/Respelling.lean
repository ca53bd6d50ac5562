import WordStream.Proofs.Stream.Symbols
import WordStream.Proofs.Words

/-!
# Spelling out what was read

A reader may accept several spellings of one word.  Where the format spells every word in the one
shortest way, spelling out again what a read gave takes fewer symbols than the read took, or gives the
very symbols that it took.  This passes from words to values, since no value is lost in its words, and
from values to lists of them.
-/

namespace WordStream

/-! ## The same string or a longer one -/

/-- A string of symbols is another one, or shorter. -/
def NoLonger {β : Type} (xs ys : List β) : Prop := xs = ys ∨ xs.length < ys.length

namespace NoLonger

variable {β : Type} {xs ys zs us vs : List β}

theorem refl (xs : List β) : NoLonger xs xs := .inl rfl

theorem length_le (h : NoLonger xs ys) : xs.length ≤ ys.length := by
  rcases h with rfl | hless
  · exact Nat.le_refl _
  · exact Nat.le_of_lt hless

theorem eq_of_length (h : NoLonger xs ys) (hlength : xs.length = ys.length) : xs = ys := by
  rcases h with heq | hless
  · exact heq
  · omega

theorem trans (h : NoLonger xs ys) (h' : NoLonger ys zs) : NoLonger xs zs := by
  rcases h with rfl | hless
  · exact h'
  · exact .inr (Nat.lt_of_lt_of_le hless h'.length_le)

theorem append (h : NoLonger xs ys) (h' : NoLonger us vs) : NoLonger (xs ++ us) (ys ++ vs) := by
  rcases h with rfl | hless
  · rcases h' with rfl | hless'
    · exact .refl _
    · refine .inr ?_
      rw [List.length_append, List.length_append]
      omega
  · have hle := h'.length_le
    refine .inr ?_
    rw [List.length_append, List.length_append]
    omega

end NoLonger

/-! ## Reads -/

section Reads

variable {ρ α γ β : Type} [SymbolSource ρ β]

/-- Whatever an action gives, it has taken the symbols that spell it, or more symbols than these. -/
def Respells (act : ReadM ρ α) (spell : α → List β) : Prop :=
  ∀ r a r', act r = .ok a r' →
    ∃ taken rest, unread r = taken ++ rest ∧ r' = skip taken.length r ∧ NoLonger (spell a) taken

namespace Respells

variable {act : ReadM ρ α} {other : ReadM ρ γ} {spell : α → List β} {spell' : γ → List β}

theorem pure (a : α) (h : spell a = []) : Respells (Pure.pure a : ReadM ρ α) spell := by
  intro r a' r' hrun
  cases hrun
  exact ⟨[], unread r, rfl, (skip_zero r).symm, .inl h⟩

theorem map (f : α → γ) (hspell : ∀ a, spell' (f a) = spell a) (h : Respells act spell) :
    Respells (act >>= fun a => Pure.pure (f a)) spell' := by
  intro r c r' hrun
  obtain ⟨a, r'', hact, hrest⟩ := bind_eq_ok.mp hrun
  cases hrest
  rw [hspell]
  exact h r a r' hact

/-- Two results are spelled out one after the other, as they were read. -/
theorem map₂ {δ : Type} {spell'' : δ → List β} (f : α → γ → δ)
    (hspell : ∀ a c, spell'' (f a c) = spell a ++ spell' c) (h : Respells act spell)
    (hother : Respells other spell') :
    Respells (act >>= fun a => other >>= fun c => Pure.pure (f a c)) spell'' := by
  intro r d r'' hrun
  obtain ⟨a, r', hact, hrest⟩ := bind_eq_ok.mp hrun
  obtain ⟨c, s, hread, hgives⟩ := bind_eq_ok.mp hrest
  cases hgives
  obtain ⟨taken, rest, hr, rfl, hfirst⟩ := h r a r' hact
  obtain ⟨taken', rest', hr', rfl, hsecond⟩ := hother _ c r'' hread
  refine ⟨taken ++ taken', rest', ?_, ?_, ?_⟩
  · rw [unread_skip_of_append hr] at hr'
    rw [hr, hr', List.append_assoc]
  · rw [skip_skip, List.length_append]
  · rw [hspell]
    exact hfirst.append hsecond

theorem adaptExcept (f : DecodeError → DecodeError) (h : Respells act spell) :
    Respells (act.adaptExcept f) spell := by
  intro r a r' hrun
  refine h r a r' ?_
  unfold EStateM.adaptExcept at hrun
  split at hrun
  · cases hrun
  · next hact =>
      cases hrun
      exact hact

theorem mapM {ι : Type} {read : ι → ReadM ρ α} (h : ∀ i, Respells (read i) spell) (is : List ι) :
    Respells (is.mapM read) fun answers => answers.flatMap spell := by
  induction is with
  | nil => exact .pure [] rfl
  | cons i is ih =>
      rw [List.mapM_cons]
      exact .map₂ List.cons (fun _ _ => rfl) (h i) ih

/-! ## Values -/

variable [WordReader ρ] {spelling : Spelling β}
  (hword : Respells (readWord : ReadM ρ UInt32) spelling.word)

include hword

theorem readSigned :
    Respells (WordStream.readSigned : ReadM ρ Int32) fun v => spelling.word (zigzag v) :=
  hword.map unzigzag fun w => by rw [zigzag_unzigzag]

theorem readFloat :
    Respells (WordStream.readFloat : ReadM ρ UInt32) fun v => spelling.word (reverseBits v) :=
  hword.map reverseBits fun w => by rw [reverseBits_reverseBits]

/-- The words of a value are those that it was read from. -/
theorem readKind (kind : Kind) :
    Respells (WordStream.readKind kind : ReadM ρ Value) fun v => spelling.words v.toWords := by
  cases kind with
  | uint32 => exact hword.map Value.uint32 fun w => spelling.words_singleton w
  | int32 => exact hword.readSigned.map Value.int32 fun v => spelling.words_singleton _
  | float32 => exact hword.readFloat.map Value.float32 fun v => spelling.words_singleton _
  | float64 =>
      refine Respells.map Value.float64 (fun _ => rfl) (hword.map₂ _ (fun low high => ?_) hword)
      rw [Value.toWords, lowHalf_joinHalves, highHalf_joinHalves, reverseBits_reverseBits,
        reverseBits_reverseBits, Spelling.words_cons, Spelling.words_singleton]
  | int64 =>
      refine Respells.map Value.int64 (fun _ => rfl)
        (hword.readSigned.map₂ _ (fun low high => ?_) hword.readSigned)
      rw [Value.toWords, UInt64.toUInt64_toInt64, lowHalf_joinHalves, highHalf_joinHalves,
        Int32.toInt32_toUInt32, Int32.toInt32_toUInt32, Spelling.words_cons,
        Spelling.words_singleton]

theorem readValues (schema : List Kind) :
    Respells (WordStream.readValues schema : ReadM ρ (List Value)) fun values =>
      spelling.words (values.flatMap Value.toWords) := by
  have h : Respells (WordStream.readValues schema : ReadM ρ (List Value)) fun values =>
      values.flatMap fun v => spelling.words v.toWords :=
    Respells.mapM (fun kind => (hword.readKind kind).adaptExcept (·.withContext kind.name)) schema
  simpa only [Spelling.words, List.flatMap_assoc] using h

end Respells

end Reads

end WordStream
