import WordStream.Proofs.Chain
import WordStream.Stream.Reading

/-!
# How reads are put together

A chain is read group by group, and a typed value word by word; between the steps there is nothing but
computation.  A law of reads that passes from step to step therefore holds of chains when it holds of
groups, and of every kind of value when it holds of words.  Laws may relate two readers, of different
sources; a law of one reader leaves the second one out of account.
-/

namespace WordStream

/-- A law of pairs of reads that holds where nothing is read, and along steps when it holds along each
of them. -/
structure Sequential {ρ ρ' : Type} (law : (α : Type) → ReadM ρ α → ReadM ρ' α → Prop) : Prop where
  pure : ∀ {α : Type} (a : α), law α (pure a) (pure a)
  bind : ∀ {α γ : Type} {act : ReadM ρ α} {act' : ReadM ρ' α} {next : α → ReadM ρ γ}
    {next' : α → ReadM ρ' γ}, law α act act' → (∀ a, law γ (next a) (next' a)) →
      law γ (act >>= next) (act' >>= next')

/-- A law of pairs of reads that holds of failures as well, whatever they say. -/
structure Compositional {ρ ρ' : Type} (law : (α : Type) → ReadM ρ α → ReadM ρ' α → Prop) :
    Prop extends Sequential law where
  throw : ∀ {α : Type} (e : DecodeError), law α (throw e) (throw e)

/-- The rest of a chain keeps to a law that its groups keep to. -/
theorem Compositional.chain {ρ ρ' : Type} {law : (α : Type) → ReadM ρ α → ReadM ρ' α → Prop}
    (h : Compositional law) (next : ReadM ρ UInt8) (next' : ReadM ρ' UInt8)
    (hnext : law UInt8 next next') (context : String) (count scale total : Nat) :
    law UInt32 (Chain.read next context count scale total)
      (Chain.read next' context count scale total) := by
  induction count generalizing scale total with
  | zero => exact h.throw _
  | succ count ih =>
      rw [Chain.read_succ, Chain.read_succ]
      refine h.bind hnext fun byte => ?_
      split
      · exact h.throw _
      · split
        · exact h.pure _
        · exact ih _ _

theorem Compositional.varint {ρ ρ' : Type} {law : (α : Type) → ReadM ρ α → ReadM ρ' α → Prop}
    (h : Compositional law) (next : ReadM ρ UInt8) (next' : ReadM ρ' UInt8)
    (hnext : law UInt8 next next') (context : String) :
    law UInt32 (Varint.read next context) (Varint.read next' context) := by
  rw [Varint.read_eq, Varint.read_eq]
  exact h.chain next next' hnext _ _ _ _

namespace Sequential

variable {ρ ρ' α γ : Type} {law : (α : Type) → ReadM ρ α → ReadM ρ' α → Prop}
  (h : Sequential law)

include h

theorem map {act : ReadM ρ α} {act' : ReadM ρ' α} (f : α → γ) (hact : law α act act') :
    law γ (act >>= fun a => Pure.pure (f a)) (act' >>= fun a => Pure.pure (f a)) :=
  h.bind hact fun a => h.pure (f a)

/-- Reads one after the other keep to a law that each of them keeps to. -/
theorem mapM {ι : Type} (read : ι → ReadM ρ α) (read' : ι → ReadM ρ' α)
    (hread : ∀ i, law α (read i) (read' i)) (is : List ι) :
    law (List α) (is.mapM read) (is.mapM read') := by
  induction is with
  | nil => exact h.pure []
  | cons i is ih =>
      rw [List.mapM_cons, List.mapM_cons]
      exact h.bind (hread i) fun a => h.map (a :: ·) ih

/-! ## Typed reads -/

variable [WordReader ρ] [WordReader ρ'] (hword : law UInt32 readWord readWord)

include hword

theorem readSigned : law Int32 WordStream.readSigned WordStream.readSigned :=
  h.map unzigzag hword

theorem readFloat : law UInt32 WordStream.readFloat WordStream.readFloat :=
  h.map reverseBits hword

theorem readDouble : law UInt64 WordStream.readDouble WordStream.readDouble :=
  h.bind hword fun _ => h.map _ hword

theorem readLong : law Int64 WordStream.readLong WordStream.readLong :=
  h.bind (h.readSigned hword) fun _ => h.map _ (h.readSigned hword)

/-- A read of any kind keeps to a law that the reads of words keep to. -/
theorem readKind (kind : Kind) :
    law Value (WordStream.readKind kind) (WordStream.readKind kind) := by
  cases kind with
  | uint32 => exact h.map Value.uint32 hword
  | int32 => exact h.map Value.int32 (h.readSigned hword)
  | float32 => exact h.map Value.float32 (h.readFloat hword)
  | float64 => exact h.map Value.float64 (h.readDouble hword)
  | int64 => exact h.map Value.int64 (h.readLong hword)

end Sequential

end WordStream
