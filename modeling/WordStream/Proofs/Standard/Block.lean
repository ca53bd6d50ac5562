import WordStream.Proofs.Chain.Canonical
import WordStream.Proofs.Sizes

/-!
# Blocks

A word is spelled into a block of the longest length, group by group: one turn takes the low seven bits
off what is left of the word, and the turns end when nothing is left.  The chain of the word then stands at
the start of the block, there has been a turn for each of its bytes, and no turn has looked for a place
behind the block.
-/

namespace WordStream.Varint

/-! ## Groups -/

/-- The low group of a word, with its top bit set if something is left behind it. -/
def lowGroup (word : UInt32) : UInt8 :=
  let low := (word &&& 0x7F).toUInt8
  if word >>> 7 = 0 then low else low ||| 0x80

theorem toNat_shiftRight_seven (word : UInt32) : (word >>> 7).toNat = word.toNat / 128 := by
  rw [UInt32.toNat_shiftRight]
  exact Nat.shiftRight_eq_div_pow _ _

theorem shiftRight_seven_eq_zero (word : UInt32) : word >>> 7 = 0 ↔ word.toNat < 128 := by
  rw [← UInt32.toNat_inj, toNat_shiftRight_seven]
  exact Nat.div_eq_zero_iff_lt (by decide)

theorem toNat_low (word : UInt32) : (word &&& 0x7F).toUInt8.toNat = word.toNat % 128 := by
  have hmask : (0x7F : UInt32).toNat = 2 ^ 7 - 1 := rfl
  rw [UInt32.toNat_toUInt8, UInt32.toNat_and, hmask, Nat.and_two_pow_sub_one_eq_mod]
  omega

theorem lowGroup_of_lt {word : UInt32} (h : word.toNat < 128) :
    lowGroup word = UInt8.ofNat word.toNat := by
  apply UInt8.toNat_inj.mp
  rw [lowGroup, if_pos ((shiftRight_seven_eq_zero word).mpr h), toNat_low, UInt8.toNat_ofNat']
  omega

theorem lowGroup_of_le {word : UInt32} (h : 128 ≤ word.toNat) :
    lowGroup word = UInt8.ofNat (128 + word.toNat % 128) := by
  have hmore : word >>> 7 ≠ 0 := fun hlast =>
    absurd ((shiftRight_seven_eq_zero word).mp hlast) (Nat.not_lt_of_le h)
  have hbit : (0x80 : UInt8).toNat = 2 ^ 7 * 1 := rfl
  apply UInt8.toNat_inj.mp
  rw [lowGroup, if_neg hmore, UInt8.toNat_or, hbit, Nat.or_comm,
    ← Nat.two_pow_add_eq_or_of_lt (by rw [toNat_low]; omega), toNat_low, UInt8.toNat_ofNat']
  omega

/-- The chain of a word is its low group and, if something is left behind it, the chain of that. -/
theorem encode_eq_cons (word : UInt32) :
    encode word = lowGroup word :: if word >>> 7 = 0 then [] else encode (word >>> 7) := by
  by_cases hlast : word.toNat < 128
  · rw [if_pos ((shiftRight_seven_eq_zero word).mpr hlast), lowGroup_of_lt hlast]
    exact Chain.groups_of_lt hlast
  · have hmore : ¬ word >>> 7 = 0 := fun hnone => hlast ((shiftRight_seven_eq_zero word).mp hnone)
    have hle := Nat.le_of_not_lt hlast
    rw [if_neg hmore, lowGroup_of_le hle, encode, encode, toNat_shiftRight_seven]
    exact Chain.groups_of_le hle

/-! ## Turns -/

/-- A block while it is being filled. -/
structure Filling where
  -- What is left of the word.
  rest : UInt32
  block : List UInt8
  -- How many bytes of the block are in use.
  used : Nat
  deriving DecidableEq

namespace Filling

/-- A block of zeros, before the first turn. -/
def start (word : UInt32) : Filling := ⟨word, List.replicate Limits.maxStandardBytes 0, 0⟩

/-- What a turn makes of a block in which a place is left. -/
def next (s : Filling) : Filling :=
  ⟨s.rest >>> 7, s.block.set s.used (lowGroup s.rest), s.used + 1⟩

/-- Take a turn, and another one as long as something is left; tell how many were taken.  A turn that finds
no place in the block is a fault. -/
def fill (s : Filling) : Except Fault (Nat × Filling) :=
  if s.used < s.block.length then
    if s.next.rest = 0 then .ok (1, s.next)
    else do
      let (turns, t) ← fill s.next
      return (turns + 1, t)
  else .error (.outOfBounds s.used s.block.length)
termination_by s.rest.toNat
decreasing_by
  have hleft := mt (shiftRight_seven_eq_zero s.rest).mpr ‹_›
  have hnext : s.next.rest.toNat = s.rest.toNat / 128 := toNat_shiftRight_seven s.rest
  omega

/-- A block whose first bytes are in use, with zeros in the places that are left. -/
def partly (rest : UInt32) (front : List UInt8) (room : Nat) : Filling :=
  ⟨rest, front ++ List.replicate room 0, front.length⟩

theorem next_partly (rest : UInt32) (front : List UInt8) (room : Nat) :
    (partly rest front (room + 1)).next = partly (rest >>> 7) (front ++ [lowGroup rest]) room := by
  have hblock : (front ++ List.replicate (room + 1) 0).set front.length (lowGroup rest) =
      front ++ [lowGroup rest] ++ List.replicate room 0 := by
    rw [List.set_append_right _ _ (Nat.le_refl _), Nat.sub_self, List.append_assoc]
    rfl
  rw [next, partly, partly, List.length_append, List.length_singleton]
  exact congrArg (fun block => Filling.mk (rest >>> 7) block (front.length + 1)) hblock

/-- Where there is room for the chain of what is left, a turn is taken for each of its bytes, and it comes
to stand behind the bytes in use. -/
theorem fill_partly (rest : UInt32) (front : List UInt8) {room : Nat} (h : (encode rest).length ≤ room) :
    fill (partly rest front room) = .ok ((encode rest).length,
      partly 0 (front ++ encode rest) (room - (encode rest).length)) := by
  -- Induction on the room: a turn takes one place, and a byte off the chain.
  induction room generalizing rest front with
  | zero => exact absurd (Nat.le_zero.mp h) (by simp [encode, Chain.groups_ne_nil])
  | succ room ih =>
      have hroom : (partly rest front (room + 1)).used < (partly rest front (room + 1)).block.length := by
        simp [partly]
      have hleft : (partly (rest >>> 7) (front ++ [lowGroup rest]) room).rest = rest >>> 7 := rfl
      have hchain := encode_eq_cons rest
      rw [fill, if_pos hroom, next_partly, hleft]
      by_cases hlast : rest >>> 7 = 0
      · rw [if_pos hlast] at hchain
        rw [if_pos hlast, hchain, hlast]
        rfl
      · rw [if_neg hlast] at hchain
        rw [hchain, List.length_cons] at h
        rw [if_neg hlast, ih _ _ (Nat.le_of_succ_le_succ h), hchain, List.length_cons,
          Nat.add_sub_add_right, List.append_assoc]
        rfl

/-- The turns end, and leave the block of the word. -/
theorem fill_start (word : UInt32) :
    fill (start word) =
      .ok (encodedLength word, ⟨0, (encodeBlock word).1, (encodeBlock word).2⟩) := by
  rw [← length_encode]
  exact fill_partly word [] (length_encode_le word)

end Filling

/-- The bytes of a block that are in use. -/
def chain (word : UInt32) : List UInt8 := (encodeBlock word).1.take (encodeBlock word).2

theorem chain_eq_encode (word : UInt32) : chain word = encode word :=
  List.take_left' rfl

theorem total_chain (word : UInt32) : Chain.total (chain word) = word.toNat := by
  rw [chain_eq_encode]
  exact Chain.total_groups word.toNat

theorem canonical_chain (word : UInt32) : Chain.Canonical (chain word) := by
  rw [chain_eq_encode]
  exact Chain.canonical_groups word.toNat

theorem encodedLength_le_iff (word : UInt32) {n : Nat} (h : 1 ≤ n) :
    encodedLength word ≤ n ↔ word.toNat < 2 ^ (7 * n) := by
  obtain ⟨count, rfl⟩ : ∃ count, n = count + 1 := ⟨n - 1, by omega⟩
  rw [← length_encode, encode, Chain.length_groups_le_iff, Nat.pow_mul]

/-- A word is spelled into a block in as many turns as its bits ask for, five at most and all of them inside
of the block.  The bytes in use are a canonical chain of the word, the others are zero.  No other canonical
chain spells the word, of whatever length; so no word is spelled by the beginning of what spells another
one. -/
theorem block_holds_the_canonical_chain (word : UInt32) :
    Filling.fill (.start word) =
      .ok (encodedLength word, ⟨0, (encodeBlock word).1, (encodeBlock word).2⟩) ∧
    (encodeBlock word).1.length = 5 ∧ (encodeBlock word).2 = encodedLength word ∧
    1 ≤ encodedLength word ∧ encodedLength word ≤ 5 ∧
    Chain.Canonical (chain word) ∧
    ((chain word).mapIdx fun i byte => byte.toNat % 128 * 2 ^ (7 * i)).sum = word.toNat ∧
    (∀ byte ∈ (encodeBlock word).1.drop (encodedLength word), byte = 0) ∧
    (∀ bytes, Chain.Canonical bytes →
      (bytes.mapIdx fun i byte => byte.toNat % 128 * 2 ^ (7 * i)).sum = word.toNat →
      bytes = chain word) ∧
    (∀ other, chain word <+: chain other → word = other) ∧
    ∀ n, 1 ≤ n → (encodedLength word ≤ n ↔ word.toNat < 2 ^ (7 * n)) := by
  have hpos : 0 < (encode word).length := List.length_pos_iff.mpr (Chain.groups_ne_nil _)
  have hle : (encode word).length ≤ 5 := length_encode_le word
  have hused := length_encode word
  refine ⟨Filling.fill_start word, ?_, hused, by omega, by omega, canonical_chain word, ?_, ?_, ?_, ?_,
    fun n => encodedLength_le_iff word⟩
  · rw [encodeBlock, List.length_append, List.length_replicate]
    exact Nat.add_sub_cancel' hle
  · rw [← Chain.total_eq_sum, total_chain]
  · intro byte hbyte
    rw [← hused, encodeBlock, List.drop_left] at hbyte
    exact List.eq_of_mem_replicate hbyte
  · intro bytes hbytes hsum
    rw [hbytes.eq_groups, Chain.total_eq_sum, hsum, chain_eq_encode]
    rfl
  · intro other hbegins
    have hsame := (canonical_chain word).eq_of_begins (canonical_chain other) hbegins
    apply UInt32.toNat_inj.mp
    rw [← total_chain word, hsame, total_chain]

/-- The word 300 takes two turns, and two bytes of the block.  They are known by their form and their number,
and no other word is spelled by bytes that begin with them. -/
theorem block_holds_the_chain_of_300 :
    (∃ block, Filling.fill (.start 300) = .ok (2, ⟨0, block, 2⟩) ∧ block.length = 5 ∧
      block.take 2 = [0xAC, 0x02] ∧ ∀ byte ∈ block.drop 2, byte = 0) ∧
    (∀ other, [0xAC, 0x02] <+: chain other → 300 = other) ∧
    (encodedLength 300 ≤ 2 ↔ 300 < 2 ^ (7 * 2)) := by
  obtain ⟨hfill, hsize, hused, -, -, -, -, hzeros, hunique, hbegins, hlength⟩ :=
    block_holds_the_canonical_chain 300
  have htwo : encodedLength 300 = 2 := by decide
  have hcanonical : Chain.Canonical [0xAC, 0x02] := by
    rw [Chain.canonical_cons_cons, Chain.canonical_singleton]
    decide
  have hchain := hunique [0xAC, 0x02] hcanonical (by decide)
  rw [hused, htwo] at hfill
  rw [htwo] at hzeros
  refine ⟨⟨_, hfill, hsize, ?_, hzeros⟩, ?_, hlength 2 (by decide)⟩
  · rw [hchain, chain, hused, htwo]
  · rw [hchain]
    exact hbegins

end WordStream.Varint
