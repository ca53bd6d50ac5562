import WordStream.Proofs.Refusal
import WordStream.Stream.Reading
import WordStream.Stream.Writing

/-!
# Streams as strings of symbols

A format writes strings of symbols: bits, bytes, or words themselves.  A writer holds the string
written so far and a reader the string not yet read; writing appends a spelling, and reading takes
one off the front.  A format is described by how it spells a word, and everything else that is
written or read follows from the spelling.
-/

namespace WordStream

/-- A writer seen as the string of symbols written so far. -/
class SymbolSink (σ : Type) (β : outParam Type) where
  -- The states that writing starts from and keeps to.
  Valid : σ → Prop
  -- The symbols written so far.
  written : σ → List β

/-- A source seen as a string of symbols, of which a first part has been read. -/
class SymbolSource (ρ : Type) (β : outParam Type) where
  -- The symbols not yet read.
  unread : ρ → List β
  -- The source after some more symbols have been read.
  skip : Nat → ρ → ρ
  skip_zero (r : ρ) : skip 0 r = r
  skip_skip (m n : Nat) (r : ρ) : skip n (skip m r) = skip (m + n) r
  unread_skip (n : Nat) (r : ρ) : unread (skip n r) = (unread r).drop n

export SymbolSink (Valid written)
export SymbolSource (unread skip skip_zero skip_skip unread_skip)

/-- How a format spells words, and bytes where it stores them in a way of their own. -/
structure Spelling (β : Type) where
  word : UInt32 → List β
  byte : UInt8 → List β

namespace Spelling

/-- The spelling of words, one after the other. -/
def words {β : Type} (spelling : Spelling β) (ws : List UInt32) : List β :=
  ws.flatMap spelling.word

@[simp] theorem words_cons {β : Type} (spelling : Spelling β) (w : UInt32) (ws : List UInt32) :
    spelling.words (w :: ws) = spelling.word w ++ spelling.words ws := rfl

theorem words_singleton {β : Type} (spelling : Spelling β) (w : UInt32) :
    spelling.words [w] = spelling.word w :=
  List.append_nil _

@[simp] theorem words_append {β : Type} (spelling : Spelling β) (us vs : List UInt32) :
    spelling.words (us ++ vs) = spelling.words us ++ spelling.words vs :=
  List.flatMap_append

end Spelling

section Writers

variable {σ α β : Type} [SymbolSink σ β]

/-- Whatever was written before, an action appends the given symbols to it. -/
def Appends (act : WriteM σ α) (symbols : List β) : Prop :=
  ∀ s, Valid s → Achieves act s fun _ s' => Valid s' ∧ written s' = written s ++ symbols

theorem Appends.pure (a : α) : Appends (Pure.pure a : WriteM σ α) [] := by
  intro s hs
  exact Achieves.pure ⟨hs, by simp⟩

theorem Appends.bind {γ : Type} {act : WriteM σ α} {next : α → WriteM σ γ} {xs ys : List β}
    (h : Appends act xs) (hnext : ∀ a, Appends (next a) ys) :
    Appends (act >>= next) (xs ++ ys) := by
  intro s hs
  refine (h s hs).bind ?_
  rintro a s' ⟨hs', hwritten⟩
  refine (hnext a s' hs').mono fun _ s'' ⟨hs'', hwritten'⟩ => ⟨hs'', ?_⟩
  rw [hwritten', hwritten, List.append_assoc]

theorem Appends.forM {ι : Type} {write : ι → WriteM σ Unit} {spell : ι → List β}
    (h : ∀ i, Appends (write i) (spell i)) (is : List ι) :
    Appends (is.forM write) (is.flatMap spell) := by
  induction is with
  | nil => exact Appends.pure ()
  | cons i is ih =>
      rw [List.flatMap_cons]
      exact Appends.bind (h i) fun _ => ih

/-- The writers of a format. -/
class WritesSpelling (σ : Type) {β : outParam Type} [SymbolSink σ β] [WordWriter σ]
    (spelling : outParam (Spelling β)) : Prop where
  appends_writeWord (w : UInt32) : Appends (writeWord w : WriteM σ Unit) (spelling.word w)
  appends_writeBool (b : Bool) : Appends (writeBool b : WriteM σ Unit) (spelling.byte b.toUInt8)
  appends_writeByte (x : UInt8) : Appends (writeByte x : WriteM σ Unit) (spelling.byte x)

export WritesSpelling (appends_writeWord appends_writeBool appends_writeByte)

variable [WordWriter σ] {spelling : Spelling β} [WritesSpelling σ spelling]

theorem appends_writeWords (ws : List UInt32) :
    Appends (writeWords ws : WriteM σ Unit) (spelling.words ws) :=
  Appends.forM appends_writeWord ws

theorem appends_writeValue (value : Value) :
    Appends (writeValue value : WriteM σ Unit) (spelling.words value.toWords) :=
  appends_writeWords value.toWords

theorem appends_writeValues (values : List Value) :
    Appends (writeValues values : WriteM σ Unit)
      (spelling.words (values.flatMap Value.toWords)) := by
  rw [Spelling.words, List.flatMap_assoc]
  exact Appends.forM appends_writeValue values

end Writers

section Readers

variable {ρ α β : Type} [SymbolSource ρ β]

theorem unread_skip_of_append {r : ρ} {xs rest : List β} (h : unread r = xs ++ rest) :
    unread (skip xs.length r) = rest := by
  rw [unread_skip, h, List.drop_left]

/-- From any source that goes on with the given symbols, an action takes just these and gives `a`. -/
def Takes (act : ReadM ρ α) (symbols : List β) (a : α) : Prop :=
  ∀ r rest, unread r = symbols ++ rest → act r = .ok a (skip symbols.length r)

theorem Takes.pure (a : α) : Takes (Pure.pure a : ReadM ρ α) [] a := by
  intro r rest _
  rw [List.length_nil, skip_zero]
  rfl

theorem Takes.bind {γ : Type} {act : ReadM ρ α} {next : α → ReadM ρ γ} {xs ys : List β} {a : α}
    {c : γ} (h : Takes act xs a) (hnext : Takes (next a) ys c) :
    Takes (act >>= next) (xs ++ ys) c := by
  intro r rest hr
  rw [List.append_assoc] at hr
  have hfirst := h r (ys ++ rest) hr
  have hsecond := hnext (skip xs.length r) rest (unread_skip_of_append hr)
  rw [bind_of_ok hfirst, hsecond, skip_skip, List.length_append]

theorem Takes.map {γ : Type} {act : ReadM ρ α} {xs : List β} {a : α} (f : α → γ)
    (h : Takes act xs a) : Takes (act >>= fun a => Pure.pure (f a)) xs (f a) := by
  rw [← List.append_nil xs]
  exact Takes.bind h (Takes.pure (f a))

theorem Takes.map₂ {γ δ : Type} {act : ReadM ρ α} {other : ReadM ρ γ} {xs ys : List β} {a : α}
    {c : γ} (f : α → γ → δ) (h : Takes act xs a) (hother : Takes other ys c) :
    Takes (act >>= fun a => other >>= fun c => Pure.pure (f a c)) (xs ++ ys) (f a c) :=
  Takes.bind h (Takes.map (f a) hother)

theorem Takes.adaptExcept {act : ReadM ρ α} {xs : List β} {a : α} (f : DecodeError → DecodeError)
    (h : Takes act xs a) : Takes (act.adaptExcept f) xs a := by
  intro r rest hr
  simp only [EStateM.adaptExcept, h r rest hr]

/-- Reads one after the other take the spellings one after the other. -/
theorem Takes.mapM {ι : Type} {read : ι → ReadM ρ α} {spell : ι → List β} {answer : ι → α}
    (h : ∀ i, Takes (read i) (spell i) (answer i)) (is : List ι) :
    Takes (is.mapM read) (is.flatMap spell) (is.map answer) := by
  induction is with
  | nil => exact Takes.pure []
  | cons i is ih =>
      rw [List.mapM_cons, List.flatMap_cons, List.map_cons]
      exact Takes.bind (h i) (Takes.map (answer i :: ·) ih)

/-- The readers of a format. -/
class ReadsSpelling (ρ : Type) {β : outParam Type} [SymbolSource ρ β] [WordReader ρ]
    (spelling : outParam (Spelling β)) : Prop where
  takes_readWord (w : UInt32) : Takes (readWord : ReadM ρ UInt32) (spelling.word w) w
  takes_readBool (b : Bool) : Takes (readBool : ReadM ρ Bool) (spelling.byte b.toUInt8) b
  takes_readByte (x : UInt8) : Takes (readByte : ReadM ρ UInt8) (spelling.byte x) x
  readWord_of_unread_nil (r : ρ) : unread r = [] →
    ∃ context, (readWord : ReadM ρ UInt32) r = .error ⟨.unexpectedEnd, context⟩ r

export ReadsSpelling (takes_readWord takes_readBool takes_readByte readWord_of_unread_nil)

end Readers

end WordStream
