import WordStream.Proofs.Chain.Grammar

/-!
# Reading by the grammar

A reader of chains gives exactly what the grammar says of the groups ahead: the number of a whole
chain, or the error of the case at hand, and it stops after the last group that it needed.  The number
read so far stays below what the next group counts, so that a sum past 32 bits shows at the last place
and nowhere else.
-/

namespace WordStream

open Chain

/-- A read that takes a group of `width` symbols off a source, and fails where it is when less than a
whole group is left. -/
structure TakesGroups {ρ β : Type} [SymbolSource ρ β] (next : ReadM ρ UInt8) (width : Nat)
    (spell : UInt8 → List β) (context : String) : Prop where
  length_spell : ∀ group, (spell group).length = width
  takes : ∀ group, Takes next (spell group) group
  ends : ∀ r : ρ, (unread r).length < width → next r = .error ⟨.unexpectedEnd, context⟩ r

/-- What a read of a chain gives is what the grammar says of the groups ahead, where `read` is the
number read before them. -/
structure Judges {ρ β : Type} [SymbolSource ρ β] (layout : Layout) (width : Nat) (context : String)
    (groups : List UInt8) (read : Nat) (act : ReadM ρ UInt32) (r : ρ) : Prop where
  ok_of_endsAt : ∀ n, layout.EndsAt groups n →
    ∃ w, act r = .ok w (skip (width * (n + 1)) r) ∧
      w.toNat = read + layout.number groups (n + 1)
  error_of_overflows : layout.Overflows groups →
    act r = .error ⟨.overflow, context⟩ (skip (width * (layout.lastPlace + 1)) r)
  error_of_goesOn : layout.GoesOn groups →
    act r = .error ⟨.tooLong, context⟩ (skip (width * (layout.lastPlace + 1)) r)
  error_of_breaksOff : layout.BreaksOff groups →
    act r = .error ⟨.unexpectedEnd, context⟩ (skip (width * groups.length) r)

namespace Judges

variable {ρ β : Type} [SymbolSource ρ β] {layout : Layout} {width read : Nat} {context : String}
  {groups : List UInt8} {act : ReadM ρ UInt32} {r : ρ}

/-- A word is given just where a whole chain lies ahead. -/
theorem ok_iff (h : Judges layout width context groups read act r) (w : UInt32) (r' : ρ) :
    act r = .ok w r' ↔
      ∃ n, layout.EndsAt groups n ∧ w.toNat = read + layout.number groups (n + 1) ∧
        r' = skip (width * (n + 1)) r := by
  constructor
  · intro hrun
    rcases layout.exhaustive groups with ⟨n, hends⟩ | hover | hgoes | hbreaks
    · obtain ⟨v, hok, hv⟩ := h.ok_of_endsAt n hends
      rw [hrun] at hok
      injection hok with hword hleft
      exact ⟨n, hends, by rw [hword, hv], hleft⟩
    · rw [h.error_of_overflows hover] at hrun
      contradiction
    · rw [h.error_of_goesOn hgoes] at hrun
      contradiction
    · rw [h.error_of_breaksOff hbreaks] at hrun
      contradiction
  · rintro ⟨n, hends, hw, rfl⟩
    obtain ⟨v, hok, hv⟩ := h.ok_of_endsAt n hends
    rw [hok, UInt32.toNat_inj.mp (hv.trans hw.symm)]

/-- Each error is given just where the grammar has its case, and under the name that was asked for. -/
theorem error_iff (h : Judges layout width context groups read act r) (e : DecodeError) (r' : ρ) :
    act r = .error e r' ↔
      (e = ⟨.overflow, context⟩ ∧ layout.Overflows groups ∧
        r' = skip (width * (layout.lastPlace + 1)) r) ∨
      (e = ⟨.tooLong, context⟩ ∧ layout.GoesOn groups ∧
        r' = skip (width * (layout.lastPlace + 1)) r) ∨
      (e = ⟨.unexpectedEnd, context⟩ ∧ layout.BreaksOff groups ∧
        r' = skip (width * groups.length) r) := by
  constructor
  · intro hrun
    rcases layout.exhaustive groups with ⟨n, hends⟩ | hover | hgoes | hbreaks
    · obtain ⟨v, hok, -⟩ := h.ok_of_endsAt n hends
      rw [hok] at hrun
      contradiction
    · rw [h.error_of_overflows hover] at hrun
      injection hrun with herror hleft
      exact .inl ⟨herror.symm, hover, hleft.symm⟩
    · rw [h.error_of_goesOn hgoes] at hrun
      injection hrun with herror hleft
      exact .inr (.inl ⟨herror.symm, hgoes, hleft.symm⟩)
    · rw [h.error_of_breaksOff hbreaks] at hrun
      injection hrun with herror hleft
      exact .inr (.inr ⟨herror.symm, hbreaks, hleft.symm⟩)
  · rintro (⟨rfl, hover, rfl⟩ | ⟨rfl, hgoes, rfl⟩ | ⟨rfl, hbreaks, rfl⟩)
    · exact h.error_of_overflows hover
    · exact h.error_of_goesOn hgoes
    · exact h.error_of_breaksOff hbreaks

/-! ## Judging group by group -/

theorem nil (hrun : act r = .error ⟨.unexpectedEnd, context⟩ r) :
    Judges layout width context [] read act r where
  ok_of_endsAt _ hends := absurd hends Layout.not_endsAt_nil
  error_of_overflows := by
    rintro ⟨-, group, hgroup, -⟩
    simp at hgroup
  error_of_goesOn := by
    rintro ⟨-, group, hgroup, -⟩
    simp at hgroup
  error_of_breaksOff _ := by
    rw [List.length_nil, Nat.mul_zero, skip_zero]
    exact hrun

variable {group : UInt8} (hlast : 0 < layout.lastPlace)

include hlast

/-- A group before the last place that announces no other one is the whole chain. -/
theorem cons_of_ends {w : UInt32} (hends : layout.announces 0 group = false)
    (hrun : act r = .ok w (skip width r)) (hw : w.toNat = read + layout.worth 0 group) :
    Judges layout width context (group :: groups) read act r where
  ok_of_endsAt n hn := by
    cases n with
    | zero =>
        refine ⟨w, by rw [hrun, Nat.zero_add, Nat.mul_one], ?_⟩
        rw [hw, Layout.number_cons, Layout.number_zero, Nat.add_zero]
    | succ n =>
        have hmore := ((Layout.endsAt_cons hlast).mp hn).1
        rw [hends] at hmore
        contradiction
  error_of_overflows h := by
    have hmore := ((Layout.overflows_cons hlast).mp h).1
    rw [hends] at hmore
    contradiction
  error_of_goesOn h := by
    have hmore := ((Layout.goesOn_cons hlast).mp h).1
    rw [hends] at hmore
    contradiction
  error_of_breaksOff h := by
    have hmore := ((Layout.breaksOff_cons hlast).mp h).1
    rw [hends] at hmore
    contradiction

/-- After a group before the last place that announces another one, the rest of the layout judges the
rest of the groups. -/
theorem cons_of_announces {rest : ReadM ρ UInt32} (hmore : layout.announces 0 group = true)
    (hrun : act r = rest (skip width r))
    (h : Judges layout.tail width context groups (read + layout.worth 0 group) rest (skip width r)) :
    Judges layout width context (group :: groups) read act r where
  ok_of_endsAt n hn := by
    cases n with
    | zero =>
        have hends := hn.announces_first
        rw [hmore] at hends
        contradiction
    | succ n =>
        obtain ⟨w, hok, hw⟩ := h.ok_of_endsAt n ((Layout.endsAt_cons hlast).mp hn).2
        refine ⟨w, ?_, ?_⟩
        · rw [hrun, hok, skip_skip, Nat.add_comm width, ← Nat.mul_succ]
        · rw [hw, Layout.number_cons, Nat.add_assoc]
  error_of_overflows hover := by
    have hplace : layout.tail.lastPlace + 1 = layout.lastPlace := Nat.sub_add_cancel hlast
    rw [hrun, h.error_of_overflows ((Layout.overflows_cons hlast).mp hover).2, skip_skip,
      Nat.add_comm width, ← Nat.mul_succ, hplace]
  error_of_goesOn hgoes := by
    have hplace : layout.tail.lastPlace + 1 = layout.lastPlace := Nat.sub_add_cancel hlast
    rw [hrun, h.error_of_goesOn ((Layout.goesOn_cons hlast).mp hgoes).2, skip_skip,
      Nat.add_comm width, ← Nat.mul_succ, hplace]
  error_of_breaksOff hbreaks := by
    rw [hrun, h.error_of_breaksOff ((Layout.breaksOff_cons hlast).mp hbreaks).2, skip_skip,
      Nat.add_comm width, ← Nat.mul_succ, List.length_cons]

end Judges

namespace Chain

theorem two_pow_le_of_mul_eq {bound shift k size : Nat} (h : bound * 2 ^ (shift + k) = size + 1) :
    2 ^ shift ≤ size + 1 := by
  cases bound with
  | zero => simp at h
  | succ bound =>
      have hpow : 2 ^ shift ≤ 2 ^ (shift + k) :=
        Nat.pow_le_pow_right (by decide) (Nat.le_add_right shift k)
      rw [← h, Nat.succ_mul]
      omega

/-! ## Taking groups -/

section Reading

variable {ρ β : Type} [SymbolSource ρ β] {next : ReadM ρ UInt8} {width : Nat}
  {spell : UInt8 → List β} {context : String}

/-- One group is taken off the groups ahead, and the chain ends, fails or goes on with the rest. -/
theorem read_group (h : TakesGroups next width spell context) (count scale total : Nat) {r : ρ}
    {group : UInt8} {rest : List β} (hr : unread r = spell group ++ rest) :
    read next context (count + 1) scale total r =
      if UInt32.size ≤ total + group.toNat % 128 * scale then
        .error ⟨.overflow, context⟩ (skip width r)
      else if group.toNat.testBit 7 then
        read next context count (scale * 128) (total + group.toNat % 128 * scale) (skip width r)
      else .ok (UInt32.ofNat (total + group.toNat % 128 * scale)) (skip width r) := by
  have htake := h.takes group r rest hr
  rw [h.length_spell] at htake
  rw [read_succ, bind_of_ok htake, testBit_seven]
  by_cases hover : UInt32.size ≤ total + group.toNat % 128 * scale
  · rw [if_pos hover, if_pos hover]
    rfl
  · rw [if_neg hover, if_neg hover]
    by_cases hends : group.toNat < 128
    · rw [if_pos hends, if_neg (by simpa using hends)]
      rfl
    · rw [if_neg hends, if_pos (by simpa using hends)]

theorem read_of_short (h : TakesGroups next width spell context) (count scale total : Nat) {r : ρ}
    (hr : (unread r).length < width) :
    read next context (count + 1) scale total r = .error ⟨.unexpectedEnd, context⟩ r := by
  rw [read_succ, bind_of_error (h.ends r hr)]

/-- Where a chain has come to its last place, the group there decides. -/
theorem judges_read_last (h : TakesGroups next width spell context) {shift bound total : Nat}
    {r : ρ} {group : UInt8} {groups : List UInt8} {rest : List β}
    (hr : unread r = spell group ++ rest) (htotal : total < 2 ^ shift)
    (hbound : bound * 2 ^ shift = UInt32.size) :
    Judges (.uniform 0 shift bound) width context (group :: groups) total
      (read next context 1 (2 ^ shift) total) r := by
  have hrun := read_group h 0 (2 ^ shift) total hr
  -- The sum passes 32 bits just when the group counts too much.
  have hsize : UInt32.size ≤ total + group.toNat % 128 * 2 ^ shift ↔
      bound ≤ group.toNat % 128 := by
    rw [← hbound]
    rcases Nat.lt_or_ge (group.toNat % 128) bound with hless | hmore
    · have hnext := Nat.mul_le_mul_right (2 ^ shift) (Nat.succ_le_of_lt hless)
      rw [Nat.succ_mul] at hnext
      omega
    · have hscaled := Nat.mul_le_mul_right (2 ^ shift) hmore
      omega
  have hfirst : ∀ {last}, (group :: groups)[0]? = some last → last = group :=
    fun hlast => (Option.some.inj hlast).symm
  constructor
  · rintro n ⟨hn, -, last, hlast, hends, hless⟩
    obtain rfl : n = 0 := Nat.le_zero.mp hn
    obtain rfl := hfirst hlast
    have hsmall : ¬ UInt32.size ≤ total + last.toNat % 128 * 2 ^ shift :=
      fun hle => absurd (hsize.mp hle) (Nat.not_le_of_lt (hless rfl))
    have hends' : ¬ last.toNat.testBit 7 = true := Bool.eq_false_iff.mp hends
    rw [if_neg hsmall, if_neg hends'] at hrun
    refine ⟨_, by rw [hrun, Nat.zero_add, Nat.mul_one], ?_⟩
    rw [UInt32.toNat_ofNat_of_lt' (Nat.lt_of_not_le hsmall), Layout.number_cons]
    rfl
  · rintro ⟨-, last, hlast, hmuch⟩
    obtain rfl := hfirst hlast
    rw [if_pos (hsize.mpr hmuch)] at hrun
    rw [hrun, show (Layout.uniform 0 shift bound).lastPlace = 0 from rfl, Nat.zero_add, Nat.mul_one]
  · rintro ⟨-, last, hlast, hmore, hless⟩
    obtain rfl := hfirst hlast
    have hsmall : ¬ UInt32.size ≤ total + last.toNat % 128 * 2 ^ shift :=
      fun hle => absurd (hsize.mp hle) (Nat.not_le_of_lt hless)
    have hmore' : last.toNat.testBit 7 = true := hmore
    rw [if_neg hsmall, if_pos hmore'] at hrun
    rw [hrun, show (Layout.uniform 0 shift bound).lastPlace = 0 from rfl, Nat.zero_add, Nat.mul_one]
    rfl
  · rintro ⟨hlength, -⟩
    simp [Layout.uniform] at hlength

/-- Reading groups of one form judges all that lie ahead by their layout. -/
theorem judges_read (h : TakesGroups next width spell context) {last shift bound total : Nat}
    {r : ρ} {groups : List UInt8} {rest : List β} (hr : unread r = groups.flatMap spell ++ rest)
    (hshort : rest.length < width) (htotal : total < 2 ^ shift)
    (hbound : bound * 2 ^ (shift + 7 * last) = UInt32.size) :
    Judges (.uniform last shift bound) width context groups total
      (read next context (last + 1) (2 ^ shift) total) r := by
  -- Induction on the last place: a group that announces another one leaves a chain of one less.
  induction last generalizing shift total r groups with
  | zero =>
      cases groups with
      | nil => exact Judges.nil (read_of_short h 0 _ _ (by rwa [hr]))
      | cons group groups =>
          rw [List.flatMap_cons, List.append_assoc] at hr
          exact judges_read_last h hr htotal hbound
  | succ last ih =>
      cases groups with
      | nil => exact Judges.nil (read_of_short h _ _ _ (by rwa [hr]))
      | cons group groups =>
          rw [List.flatMap_cons, List.append_assoc] at hr
          have hrun := read_group h (last + 1) (2 ^ shift) total hr
          -- Before the last place the sum stays below what the next group counts, so below a word.
          have hscale : 2 ^ (shift + 7) = 2 ^ shift * 128 := Nat.pow_add 2 shift 7
          have hsum : total + group.toNat % 128 * 2 ^ shift < 2 ^ (shift + 7) := by
            have hworth : group.toNat % 128 * 2 ^ shift ≤ 127 * 2 ^ shift :=
              Nat.mul_le_mul_right _ (by omega)
            omega
          have hrest : bound * 2 ^ (shift + 7 + 7 * last) = UInt32.size := by
            rwa [show shift + 7 + 7 * last = shift + 7 * (last + 1) by omega]
          have hsmall : total + group.toNat % 128 * 2 ^ shift < UInt32.size :=
            Nat.lt_of_lt_of_le hsum (two_pow_le_of_mul_eq hrest)
          rw [if_neg (Nat.not_le_of_lt hsmall)] at hrun
          cases hmore : group.toNat.testBit 7 with
          | false =>
              rw [if_neg (Bool.eq_false_iff.mp hmore)] at hrun
              exact Judges.cons_of_ends (Nat.succ_pos last) hmore hrun
                (UInt32.toNat_ofNat_of_lt' hsmall)
          | true =>
              rw [if_pos hmore, ← hscale] at hrun
              refine Judges.cons_of_announces (Nat.succ_pos last) hmore hrun ?_
              rw [Layout.tail_uniform]
              refine ih ?_ hsum hrest
              rw [← h.length_spell group]
              exact unread_skip_of_append hr

end Reading

end Chain

end WordStream
