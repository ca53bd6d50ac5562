import Mathlib.Data.List.Forall2
import WordStream.Proofs.Stream.Motion
import WordStream.Proofs.Stream.Runs
import WordStream.Proofs.Stream.Simulation

/-!
# Reads inside of an extent

A source has a place up to which it has been read, and a limit behind which there is nothing.  No step of
a read leads back or past the limit, so that no run of reads does, whatever the reads are and whichever of
them fail.  What a read does where it starts, its first step decides: at the limit it fails and stays, and
before it the read may be sure to go on.
-/

namespace WordStream

/-- How far a source has been read, and how far it can be. -/
class Extent (ρ : Type) where
  place : ρ → Nat
  limit : ρ → Nat

export Extent (place limit)

/-- Make a read and tell what it gives, also when it fails, so that a run goes on after it. -/
def told {ρ α : Type} (act : ReadM ρ α) : ReadM ρ (Except DecodeError α) := fun r =>
  .ok (outcome (act r)) (leaves (act r))

section Reads

variable {ρ α γ : Type} [Extent ρ]

/-- A move forward that ends inside of the source, unless it started past the limit and stays there. -/
structure Contained (r r' : ρ) : Prop where
  limit_eq : limit r' = limit r
  forward : place r ≤ place r'
  inside : place r' ≤ max (place r) (limit r)

theorem contained_stepwise : Stepwise (Contained (ρ := ρ)) where
  refl r := ⟨rfl, Nat.le_refl _, Nat.le_max_left _ _⟩
  trans {r s t} h h' := by
    have hlimit := h.limit_eq
    have hinside := h.inside
    have hinside' := h'.inside
    exact ⟨h'.limit_eq.trans hlimit, Nat.le_trans h.forward h'.forward, by omega⟩

/-- A read that is contained, goes on by at least `least` where anything is left, and fails where nothing
is. -/
structure Proceeds (least : Nat) (act : ReadM ρ α) : Prop where
  contained : Moves Contained act
  advances : ∀ r, place r < limit r → place r + least ≤ place (leaves (act r))
  ends : ∀ r, limit r ≤ place r → ∃ context, act r = .error ⟨.unexpectedEnd, context⟩ r

namespace Proceeds

variable {least : Nat} {act : ReadM ρ α} {next : α → ReadM ρ γ}

/-- The first step is enough, as long as the others are contained. -/
theorem bind (h : Proceeds least act) (hnext : ∀ a, Moves Contained (next a)) :
    Proceeds least (act >>= next) where
  contained := h.contained.bind contained_stepwise hnext
  advances r hr := by
    have hfirst := h.advances r hr
    cases hrun : act r with
    | ok a s =>
        rw [hrun] at hfirst
        rw [bind_of_ok hrun]
        exact Nat.le_trans hfirst (hnext a s).forward
    | error e s =>
        rw [hrun] at hfirst
        rw [bind_of_error hrun]
        exact hfirst
  ends r hr := by
    obtain ⟨context, hrun⟩ := h.ends r hr
    exact ⟨context, bind_of_error hrun⟩

theorem map (f : α → γ) (h : Proceeds least act) :
    Proceeds least (act >>= fun a => Pure.pure (f a)) :=
  h.bind fun a => Moves.pure contained_stepwise (f a)

/-- A failure may be reported under another name. -/
theorem withContext (h : Proceeds least act) (name : String) :
    Proceeds least (act.adaptExcept (·.withContext name)) where
  contained := h.contained.adaptExcept _
  advances r hr := by
    have hfirst := h.advances r hr
    unfold EStateM.adaptExcept
    cases hrun : act r with
    | ok a s =>
        rw [hrun] at hfirst
        exact hfirst
    | error e s =>
        rw [hrun] at hfirst
        exact hfirst
  ends r hr := by
    obtain ⟨context, hrun⟩ := h.ends r hr
    exact ⟨name, by simp only [EStateM.adaptExcept, hrun, DecodeError.withContext]⟩

end Proceeds

/-! ## Typed reads -/

/-- The reads that a format has of its own proceed. -/
structure ProceedsOnWords (ρ : Type) [Extent ρ] [WordReader ρ] (least : Nat) : Prop where
  readWord : Proceeds least (WordStream.readWord : ReadM ρ UInt32)
  readBool : Proceeds least (WordStream.readBool : ReadM ρ Bool)
  readByte : Proceeds least (WordStream.readByte : ReadM ρ UInt8)

namespace ProceedsOnWords

variable [WordReader ρ] {least : Nat} (h : ProceedsOnWords ρ least)

include h

theorem movesOnWords : MovesOnWords (Contained (ρ := ρ)) :=
  ⟨contained_stepwise, h.readWord.contained, h.readBool.contained, h.readByte.contained⟩

theorem readSigned : Proceeds least (WordStream.readSigned : ReadM ρ Int32) :=
  h.readWord.map unzigzag

theorem readFloat : Proceeds least (WordStream.readFloat : ReadM ρ UInt32) :=
  h.readWord.map reverseBits

theorem readDouble : Proceeds least (WordStream.readDouble : ReadM ρ UInt64) :=
  h.readWord.bind fun _ => (h.readWord.map _).contained

theorem readLong : Proceeds least (WordStream.readLong : ReadM ρ Int64) :=
  h.readSigned.bind fun _ => (h.readSigned.map _).contained

theorem readValue (kind : Kind) : Proceeds least (WordStream.readValue kind : ReadM ρ Value) := by
  refine Proceeds.withContext ?_ kind.name
  cases kind with
  | uint32 => exact h.readWord.map Value.uint32
  | int32 => exact h.readSigned.map Value.int32
  | float32 => exact h.readFloat.map Value.float32
  | float64 => exact h.readDouble.map Value.float64
  | int64 => exact h.readLong.map Value.int64

theorem read (type : ItemType) : Proceeds least (type.read : ReadM ρ Item) := by
  cases type with
  | word => exact h.readWord.map Item.word
  | bool => exact h.readBool.map Item.bool
  | byte => exact h.readByte.map Item.byte
  | char => exact (h.readWord.map UInt32.toUInt16).map Item.char
  | short => exact (h.readSigned.map Int32.toInt16).map Item.short
  | signed => exact h.readSigned.map Item.signed
  | float => exact h.readFloat.map Item.float
  | double => exact h.readDouble.map Item.double
  | long => exact h.readLong.map Item.long
  | value kind => exact (h.readValue kind).map Item.value

end ProceedsOnWords

end Reads

/-! ## Requests -/

/-- What a reader can be asked for: a typed read, or the values of a schema. -/
inductive Request where
  | item (type : ItemType)
  | values (schema : List Kind)
  deriving DecidableEq

namespace Request

/-- Carry the request out; values are items of their kinds. -/
def read {ρ : Type} [WordReader ρ] : Request → ReadM ρ (List Item)
  | item type => return [← type.read]
  | values schema => return (← readValues schema).map Item.value

/-- Whether anything is asked for: an empty schema asks for nothing. -/
def asks : Request → Bool
  | item _ => true
  | values schema => !schema.isEmpty

section

variable {ρ ρ' : Type} [WordReader ρ] [WordReader ρ']

/-- A law that the reads of a format's own keep to, whatever is asked for keeps to, if it passes along
steps and does not look at the names under which failures are reported. -/
theorem read_lawful {law : (α : Type) → ReadM ρ α → ReadM ρ' α → Prop} (h : Sequential law)
    (hcontext : ∀ (name : String) {α : Type} {act : ReadM ρ α} {act' : ReadM ρ' α}, law α act act' →
      law α (act.adaptExcept (·.withContext name)) (act'.adaptExcept (·.withContext name)))
    (hword : law UInt32 readWord readWord) (hbool : law Bool readBool readBool)
    (hbyte : law UInt8 readByte readByte) (request : Request) :
    law (List Item) request.read request.read := by
  have hvalue : ∀ kind, law Value (readValue kind) (readValue kind) := fun kind =>
    hcontext kind.name (h.readKind hword kind)
  cases request with
  | item type => exact h.map (fun item => [item]) (h.read hword hbool hbyte hvalue type)
  | values schema => exact h.map (List.map Item.value) (h.mapM readValue readValue hvalue schema)

/-- Readers that stay in step where they read words, booleans and bytes do so whatever is asked for. -/
theorem read_inStep {rel : ρ → ρ' → Prop}
    (hword : InStep rel Eq (readWord : ReadM ρ UInt32) (readWord : ReadM ρ' UInt32))
    (hbool : InStep rel Eq (readBool : ReadM ρ Bool) (readBool : ReadM ρ' Bool))
    (hbyte : InStep rel Eq (readByte : ReadM ρ UInt8) (readByte : ReadM ρ' UInt8))
    (request : Request) :
    InStep rel Eq (request.read : ReadM ρ (List Item)) (request.read : ReadM ρ' (List Item)) :=
  read_lawful (InStep.compositional fun _ => rfl).toSequential
    (fun name _ _ _ hact => hact.adaptExcept fun _ _ he => congrArg (·.withContext name) he)
    hword hbool hbyte request

end

section

variable {ρ : Type} [Extent ρ] [WordReader ρ] {least : Nat} (h : ProceedsOnWords ρ least)

include h

theorem read_contained (request : Request) :
    Moves Contained (request.read : ReadM ρ (List Item)) :=
  read_lawful (Moves.compositional contained_stepwise).toSequential
    (fun _ _ _ _ hact => hact.adaptExcept _) h.readWord.contained h.readBool.contained
    h.readByte.contained request

/-- A request that asks for anything reads a first value, and this one proceeds. -/
theorem read_proceeds {request : Request} (hasks : request.asks = true) :
    Proceeds least (request.read : ReadM ρ (List Item)) := by
  cases request with
  | item type => exact (h.read type).map fun item => [item]
  | values schema =>
      cases schema with
      | nil => cases hasks
      | cons kind schema =>
          refine Proceeds.map (List.map Item.value) ?_
          rw [readValues, List.mapM_cons]
          exact (h.readValue kind).bind fun value =>
            (h.movesOnWords.readValues schema).map contained_stepwise (value :: ·)

end

end Request

/-! ## Runs -/

/-- What a run of reads shows, when it starts at `start` in a source of the limit: places in order, none
past the limit unless the run starts there, and then it stays where it is and all that is asked for fails
for the want of more. -/
structure StaysInside {ι α : Type} (asks : ι → Bool) (start limit : Nat) (calls : List ι)
    (shown : List (Except DecodeError α × Nat)) : Prop where
  forward : (start :: shown.map Prod.snd).Pairwise (· ≤ ·)
  inside : start ≤ limit → ∀ x ∈ shown, x.2 ≤ limit
  halted : limit ≤ start → List.Forall₂ (fun call x => x.2 = start ∧
    (asks call = true → ∃ context, x.1 = .error ⟨.unexpectedEnd, context⟩)) calls shown

section Runs

variable {ρ α ι : Type} [Extent ρ] {run : ι → ReadM ρ α} {asks : ι → Bool} {least : Nat}

/-- Reads that are contained, and proceed where they ask for anything, stay inside along a run, and the
run comes as far as the reads that ask lead at least. -/
theorem exists_traced_told (hcontained : ∀ call, Moves Contained (run call))
    (hproceeds : ∀ call, asks call = true → Proceeds least (run call)) (calls : List ι) (r : ρ) :
    ∃ shown r', traced place (calls.map fun call => told (run call)) r = .ok shown r' ∧
      limit r' = limit r ∧ StaysInside asks (place r) (limit r) calls shown ∧
      min (limit r) (place r + least * calls.countP asks) ≤ place r' := by
  induction calls generalizing r with
  | nil => exact ⟨[], r, rfl, rfl, ⟨by simp, by simp, fun _ => .nil⟩, Nat.min_le_right _ _⟩
  | cons call calls ih =>
      have hmove := hcontained call r
      have hforward := hmove.forward
      have hinside := hmove.inside
      obtain ⟨shown, r', hrun, hlimit, hstays, hfar⟩ := ih (leaves (run call r))
      rw [hmove.limit_eq] at hlimit hstays hfar
      refine ⟨_, r', traced_cons_ok place rfl hrun, hlimit, ⟨?_, ?_, ?_⟩, ?_⟩
      · rw [List.map_cons]
        refine List.pairwise_cons.mpr ⟨fun later hlater => ?_, hstays.forward⟩
        rcases List.mem_cons.mp hlater with rfl | hlater
        · exact hforward
        · exact Nat.le_trans hforward ((List.pairwise_cons.mp hstays.forward).1 later hlater)
      · intro hstart x hx
        rcases List.mem_cons.mp hx with rfl | hx
        · exact Nat.le_trans hinside (by omega)
        · exact hstays.inside (by omega) x hx
      · intro hstart
        have hplace : place (leaves (run call r)) = place r := by omega
        rw [hplace] at hstays
        refine .cons ⟨hplace, fun hasks => ?_⟩ (hstays.halted hstart)
        obtain ⟨context, herror⟩ := (hproceeds call hasks).ends r hstart
        exact ⟨context, by rw [herror]; rfl⟩
      · cases hasks : asks call with
        | false =>
            rw [List.countP_cons_of_neg (by simp [hasks])]
            omega
        | true =>
            have hstep := (hproceeds call hasks).advances r
            rw [List.countP_cons_of_pos hasks, Nat.mul_succ]
            omega

end Runs

/-! ## Runs in step -/

section Pairs

variable {ρ ρ' α ι : Type} {rel : ρ → ρ' → Prop}

theorem InStep.exists_told {act : ReadM ρ α} {act' : ReadM ρ' α} (h : InStep rel Eq act act') {r : ρ}
    {r' : ρ'} (hr : rel r r') :
    ∃ a s s', told act r = .ok a s ∧ told act' r' = .ok a s' ∧ rel s s' := by
  rcases h r r' hr with ⟨a, s, s', hrun, hrun', hs⟩ | ⟨e, e', s, s', hrun, hrun', rfl, hs⟩
  · exact ⟨.ok a, s, s', by rw [told, hrun]; rfl, by rw [told, hrun']; rfl, hs⟩
  · exact ⟨.error e, s, s', by rw [told, hrun]; rfl, by rw [told, hrun']; rfl, hs⟩

variable {run : ι → ReadM ρ α} {run' : ι → ReadM ρ' α}

/-- Two readers whose reads stay in step show the same along a run, if their places are told alike. -/
theorem InStep.traced_told {γ : Type} {report : ρ → γ} {report' : ρ' → γ}
    (h : ∀ call, InStep rel Eq (run call) (run' call))
    (hreport : ∀ r r', rel r r' → report r = report' r') (calls : List ι) {r : ρ} {r' : ρ'}
    (hr : rel r r') :
    ∃ shown s s', traced report (calls.map fun call => told (run call)) r = .ok shown s ∧
      traced report' (calls.map fun call => told (run' call)) r' = .ok shown s' ∧ rel s s' := by
  induction calls generalizing r r' with
  | nil => exact ⟨[], r, r', rfl, rfl, hr⟩
  | cons call calls ih =>
      obtain ⟨a, s, s', hrun, hrun', hs⟩ := (h call).exists_told hr
      obtain ⟨shown, t, t', hrest, hrest', ht⟩ := ih hs
      refine ⟨_, t, t', traced_cons_ok report hrun hrest, ?_, ht⟩
      rw [hreport s s' hs]
      exact traced_cons_ok report' hrun' hrest'

variable [Extent ρ] {asks : ι → Bool} {least : Nat}

/-- What a run shows that stays inside, a run in step with it shows too. -/
theorem exists_traced_in_step {place' : ρ' → Nat} (hcontained : ∀ call, Moves Contained (run call))
    (hproceeds : ∀ call, asks call = true → Proceeds least (run call))
    (hstep : ∀ call, InStep rel Eq (run call) (run' call))
    (hplace : ∀ r r', rel r r' → place r = place' r') (calls : List ι) {r : ρ} {r' : ρ'}
    (hr : rel r r') :
    ∃ shown s s', traced place (calls.map fun call => told (run call)) r = .ok shown s ∧
      traced place' (calls.map fun call => told (run' call)) r' = .ok shown s' ∧
      limit s = limit r ∧ StaysInside asks (place r) (limit r) calls shown ∧
      min (limit r) (place r + least * calls.countP asks) ≤ place s := by
  obtain ⟨shown, s, s', hrun, hrun', -⟩ := InStep.traced_told hstep hplace calls hr
  obtain ⟨shown', t, hsame, hstays⟩ := exists_traced_told hcontained hproceeds calls r
  rw [hrun] at hsame
  injection hsame with hshown hleft
  rw [← hshown, ← hleft] at hstays
  exact ⟨shown, s, s', hrun, hrun', hstays⟩

end Pairs

end WordStream
