import WordStream.Proofs.Motion
import WordStream.Proofs.Stream.Composition
import WordStream.Proofs.Stream.Items

/-!
# How typed calls move a stream

A relation between states that holds along the reads or writes that a format has of its own holds along
all typed ones.
-/

namespace WordStream

/-- Run an action for the state that it leaves, also when it fails. -/
def attempt {ρ α : Type} (act : ReadM ρ α) : ReadM ρ Unit := fun r => .ok () (leaves (act r))

/-- A typed read keeps to a law that the reads of a format's own and those of values keep to. -/
theorem Sequential.read {ρ ρ' : Type} [WordReader ρ] [WordReader ρ']
    {law : (α : Type) → ReadM ρ α → ReadM ρ' α → Prop} (h : Sequential law)
    (hword : law UInt32 readWord readWord) (hbool : law Bool readBool readBool)
    (hbyte : law UInt8 readByte readByte)
    (hvalue : ∀ kind, law Value (readValue kind) (readValue kind)) (type : ItemType) :
    law Item type.read type.read := by
  have hsigned := h.readSigned hword
  cases type with
  | word => exact h.map Item.word hword
  | bool => exact h.map Item.bool hbool
  | byte => exact h.map Item.byte hbyte
  | char => exact h.map Item.char (h.map UInt32.toUInt16 hword)
  | short => exact h.map Item.short (h.map Int32.toInt16 hsigned)
  | signed => exact h.map Item.signed hsigned
  | float => exact h.map Item.float (h.readFloat hword)
  | double => exact h.map Item.double (h.readDouble hword)
  | long => exact h.map Item.long (h.readLong hword)
  | value kind => exact h.map Item.value (hvalue kind)

theorem Moves.compositional {ρ : Type} {rel : ρ → ρ → Prop} (h : Stepwise rel) :
    Compositional fun α (act _ : ReadM ρ α) => Moves rel act :=
  ⟨⟨pure h, bind h⟩, throw h⟩

/-! ## Typed reads -/

/-- A relation that holds along the reads that a format has of its own. -/
structure MovesOnWords {ρ : Type} [WordReader ρ] (rel : ρ → ρ → Prop) : Prop extends
    Stepwise rel where
  readWord : Moves rel (WordStream.readWord : ReadM ρ UInt32)
  readBool : Moves rel (WordStream.readBool : ReadM ρ Bool)
  readByte : Moves rel (WordStream.readByte : ReadM ρ UInt8)

namespace MovesOnWords

variable {ρ : Type} [WordReader ρ] {rel : ρ → ρ → Prop} (h : MovesOnWords rel)

include h

theorem compositional : Compositional fun α (act _ : ReadM ρ α) => Moves rel act :=
  Moves.compositional h.toStepwise

theorem readValue (kind : Kind) : Moves rel (WordStream.readValue kind : ReadM ρ Value) :=
  (h.compositional.readKind h.readWord kind).adaptExcept _

theorem readValues (schema : List Kind) :
    Moves rel (WordStream.readValues schema : ReadM ρ (List Value)) :=
  h.compositional.mapM WordStream.readValue WordStream.readValue h.readValue schema

theorem read (type : ItemType) : Moves rel (type.read : ReadM ρ Item) :=
  h.compositional.read h.readWord h.readBool h.readByte h.readValue type

end MovesOnWords

/-! ## Typed writes -/

/-- A relation that holds along the writes that a format has of its own. -/
structure MovesOnWrites {σ : Type} [WordWriter σ] (rel : σ → σ → Prop) : Prop extends
    Stepwise rel where
  writeWord : ∀ w, Moves rel (WordStream.writeWord w : WriteM σ Unit)
  writeBool : ∀ b, Moves rel (WordStream.writeBool b : WriteM σ Unit)
  writeByte : ∀ x, Moves rel (WordStream.writeByte x : WriteM σ Unit)

namespace MovesOnWrites

variable {σ : Type} [WordWriter σ] {rel : σ → σ → Prop} (h : MovesOnWrites rel)

include h

theorem writeValue (value : Value) : Moves rel (WordStream.writeValue value : WriteM σ Unit) :=
  Moves.forM h.toStepwise h.writeWord value.toWords

theorem write (item : Item) : Moves rel (item.write : WriteM σ Unit) := by
  cases item with
  | word w => exact h.writeWord w
  | bool b => exact h.writeBool b
  | byte x => exact h.writeByte x
  | char unit => exact h.writeWord unit.toUInt32
  | short number => exact h.writeValue (.int32 number.toInt32)
  | signed number => exact h.writeValue (.int32 number)
  | float pattern => exact h.writeValue (.float32 pattern)
  | double pattern => exact h.writeValue (.float64 pattern)
  | long number => exact h.writeValue (.int64 number)
  | value v => exact h.writeValue v

end MovesOnWrites

end WordStream
