import WordStream.Proofs.Chain

/-!
# The grammar of chains

What groups spell is said without reading them.  A layout tells for every place of a chain whether a
group announces another one and how much it counts.  Groups that lie ahead either hold a whole chain,
or hold as many as a chain can have and count too much or still go on, or break off inside the chain;
one of these is always the case, and reading the groups tells which.
-/

namespace WordStream.Chain

/-- How a format lays out the groups of a chain, by their places. -/
@[ext] structure Layout where
  -- The last place that a group of a chain can have.
  lastPlace : Nat
  -- What the seven bits of a group at the last place stay below.
  lastBound : Nat
  -- Whether a group announces another one.
  announces : Nat → UInt8 → Bool
  -- What a group adds to the number.
  worth : Nat → UInt8 → Nat

namespace Layout

variable (layout : Layout)

/-- The layout of a chain from its second place on. -/
def tail : Layout where
  lastPlace := layout.lastPlace - 1
  lastBound := layout.lastBound
  announces i := layout.announces (i + 1)
  worth i := layout.worth (i + 1)

/-- Seven bits a group and the top bit for another one; the first group counts `2 ^ shift`-fold. -/
def uniform (lastPlace shift lastBound : Nat) : Layout where
  lastPlace := lastPlace
  lastBound := lastBound
  announces _ group := group.toNat.testBit 7
  worth i group := group.toNat % 128 * 2 ^ (shift + 7 * i)

/-- The number that the first `n` groups spell: the sum of what they add to it. -/
def number (groups : List UInt8) (n : Nat) : Nat :=
  ((groups.take n).mapIdx layout.worth).foldr (· + ·) 0

/-- The first `n` groups exist, and each announces another one. -/
def Continues (groups : List UInt8) (n : Nat) : Prop :=
  ∀ i < n, ∃ group, groups[i]? = some group ∧ layout.announces i group = true

/-- A whole chain lies ahead: it ends with group `n`, and spells no bits beyond the last ones. -/
def EndsAt (groups : List UInt8) (n : Nat) : Prop :=
  n ≤ layout.lastPlace ∧ layout.Continues groups n ∧
    ∃ group, groups[n]? = some group ∧ layout.announces n group = false ∧
      (n = layout.lastPlace → group.toNat % 128 < layout.lastBound)

/-- The chain comes to its last place, and the group there counts too much. -/
def Overflows (groups : List UInt8) : Prop :=
  layout.Continues groups layout.lastPlace ∧
    ∃ group, groups[layout.lastPlace]? = some group ∧ layout.lastBound ≤ group.toNat % 128

/-- The chain goes on after its last place, where the group does not count too much. -/
def GoesOn (groups : List UInt8) : Prop :=
  layout.Continues groups layout.lastPlace ∧
    ∃ group, groups[layout.lastPlace]? = some group ∧
      layout.announces layout.lastPlace group = true ∧ group.toNat % 128 < layout.lastBound

/-- The groups end where the chain needs another one. -/
def BreaksOff (groups : List UInt8) : Prop :=
  groups.length ≤ layout.lastPlace ∧ layout.Continues groups groups.length

/-! ## Groups taken one at a time -/

variable {layout} {groups : List UInt8} {group : UInt8} {n : Nat}

theorem continues_zero : layout.Continues groups 0 := by
  intro i hi
  omega

theorem Continues.mono {m : Nat} (h : layout.Continues groups n) (hle : m ≤ n) :
    layout.Continues groups m :=
  fun i hi => h i (by omega)

theorem Continues.succ (h : layout.Continues groups n) (hgroup : groups[n]? = some group)
    (hmore : layout.announces n group = true) : layout.Continues groups (n + 1) := by
  intro i hi
  by_cases hlast : i = n
  · exact ⟨group, by rw [hlast]; exact hgroup, by rw [hlast]; exact hmore⟩
  · exact h i (by omega)

theorem Continues.le_length (h : layout.Continues groups n) : n ≤ groups.length := by
  cases n with
  | zero => exact Nat.zero_le _
  | succ n =>
      obtain ⟨group, hgroup, -⟩ := h n (Nat.lt_succ_self n)
      exact (List.getElem?_eq_some_iff.mp hgroup).1

/-- Either the chain comes as far as place `n`, or before it a group is missing or the last one. -/
theorem continues_or_stops (layout : Layout) (groups : List UInt8) (n : Nat) :
    layout.Continues groups n ∨
      ∃ m < n, layout.Continues groups m ∧
        ∀ group, groups[m]? = some group → layout.announces m group = false := by
  induction n with
  | zero => exact .inl continues_zero
  | succ n ih =>
      rcases ih with hall | ⟨m, hm, hstop⟩
      · by_cases hnext : ∃ group, groups[n]? = some group ∧ layout.announces n group = true
        · obtain ⟨group, hgroup, hmore⟩ := hnext
          exact .inl (hall.succ hgroup hmore)
        · refine .inr ⟨n, Nat.lt_succ_self n, hall, fun group hgroup => ?_⟩
          cases hmore : layout.announces n group with
          | false => rfl
          | true => exact absurd ⟨group, hgroup, hmore⟩ hnext
      · exact .inr ⟨m, by omega, hstop⟩

/-- Whatever lies ahead, the grammar has a case for it. -/
theorem exhaustive (layout : Layout) (groups : List UInt8) :
    (∃ n, layout.EndsAt groups n) ∨ layout.Overflows groups ∨ layout.GoesOn groups ∨
      layout.BreaksOff groups := by
  rcases continues_or_stops layout groups layout.lastPlace with
    hall | ⟨n, hn, hcontinues, hstop⟩
  · cases hgroup : groups[layout.lastPlace]? with
    | none =>
        have hlength := List.getElem?_eq_none_iff.mp hgroup
        exact .inr (.inr (.inr ⟨hlength, hall.mono hlength⟩))
    | some group =>
        by_cases hbound : layout.lastBound ≤ group.toNat % 128
        · exact .inr (.inl ⟨hall, group, hgroup, hbound⟩)
        · cases hmore : layout.announces layout.lastPlace group with
          | true => exact .inr (.inr (.inl ⟨hall, group, hgroup, hmore, by omega⟩))
          | false => exact .inl ⟨_, Nat.le_refl _, hall, group, hgroup, hmore, fun _ => by omega⟩
  · cases hgroup : groups[n]? with
    | none =>
        have hlength : groups.length = n :=
          Nat.le_antisymm (List.getElem?_eq_none_iff.mp hgroup) hcontinues.le_length
        exact .inr (.inr (.inr ⟨by omega, by rwa [hlength]⟩))
    | some group =>
        exact .inl ⟨n, by omega, hcontinues, group, hgroup, hstop group hgroup, fun h => by omega⟩

@[simp] theorem number_zero : layout.number groups 0 = 0 := rfl

/-! ## Whole chains -/

theorem not_endsAt_nil : ¬ layout.EndsAt [] n := by
  rintro ⟨-, -, group, hgroup, -⟩
  cases hgroup

theorem EndsAt.length_take (h : layout.EndsAt groups n) :
    (groups.take (n + 1)).length = n + 1 := by
  obtain ⟨-, -, group, hgroup, -⟩ := h
  have hn := (List.getElem?_eq_some_iff.mp hgroup).1
  rw [List.length_take]
  omega

theorem EndsAt.take_ne_nil (h : layout.EndsAt groups n) : groups.take (n + 1) ≠ [] := by
  intro hnil
  have hlength := h.length_take
  rw [hnil] at hlength
  cases hlength

/-- The only group of a chain announces no other one. -/
theorem EndsAt.announces_first (h : layout.EndsAt (group :: groups) 0) :
    layout.announces 0 group = false := by
  obtain ⟨-, -, first, hfirst, hends, -⟩ := h
  rwa [← Option.some.inj hfirst] at hends

/-! ## A first group of its own form -/

/-- Groups of one form are so from the second place on as well. -/
theorem tail_uniform (lastPlace shift lastBound : Nat) :
    (uniform (lastPlace + 1) shift lastBound).tail = uniform lastPlace (shift + 7) lastBound := by
  ext i group
  · rfl
  · rfl
  · rfl
  · change group.toNat % 128 * 2 ^ (shift + 7 * (i + 1)) =
      group.toNat % 128 * 2 ^ (shift + 7 + 7 * i)
    rw [show shift + 7 * (i + 1) = shift + 7 + 7 * i by omega]

theorem number_cons :
    layout.number (group :: groups) (n + 1) = layout.worth 0 group + layout.tail.number groups n := by
  rw [number, List.take_succ_cons, List.mapIdx_cons, List.foldr_cons]
  rfl

theorem continues_cons :
    layout.Continues (group :: groups) (n + 1) ↔
      layout.announces 0 group = true ∧ layout.tail.Continues groups n := by
  constructor
  · intro h
    obtain ⟨first, hfirst, hmore⟩ := h 0 (by omega)
    have hsame : group = first := Option.some.inj hfirst
    exact ⟨by rwa [hsame], fun i hi => h (i + 1) (by omega)⟩
  · rintro ⟨hmore, h⟩ i hi
    cases i with
    | zero => exact ⟨group, rfl, hmore⟩
    | succ i => exact h i (by omega)

/-- A group goes before groups of which all but the last announce another one. -/
theorem continues_cons_of_ne_nil (hne : groups ≠ []) (hmore : layout.announces 0 group = true)
    (h : layout.tail.Continues groups (groups.length - 1)) :
    layout.Continues (group :: groups) ((group :: groups).length - 1) := by
  obtain ⟨k, hk⟩ : ∃ k, groups.length = k + 1 :=
    Nat.exists_eq_succ_of_ne_zero (by simpa using hne)
  rw [hk, Nat.add_sub_cancel] at h
  rw [List.length_cons, hk, Nat.add_sub_cancel]
  exact continues_cons.mpr ⟨hmore, h⟩

theorem endsAt_cons (hlast : 0 < layout.lastPlace) :
    layout.EndsAt (group :: groups) (n + 1) ↔
      layout.announces 0 group = true ∧ layout.tail.EndsAt groups n := by
  have hplace : layout.tail.lastPlace = layout.lastPlace - 1 := rfl
  constructor
  · rintro ⟨hn, hcontinues, last, hget, hends, hbound⟩
    obtain ⟨hmore, hrest⟩ := continues_cons.mp hcontinues
    exact ⟨hmore, by omega, hrest, last, hget, hends, fun h => hbound (by omega)⟩
  · rintro ⟨hmore, hn, hrest, last, hget, hends, hbound⟩
    exact ⟨by omega, continues_cons.mpr ⟨hmore, hrest⟩, last, hget, hends, fun h => hbound (by omega)⟩

theorem overflows_cons (hlast : 0 < layout.lastPlace) :
    layout.Overflows (group :: groups) ↔
      layout.announces 0 group = true ∧ layout.tail.Overflows groups := by
  obtain ⟨k, hk⟩ : ∃ k, layout.lastPlace = k + 1 := ⟨layout.lastPlace - 1, by omega⟩
  have hplace : layout.tail.lastPlace = k := by
    rw [tail, hk, Nat.add_sub_cancel]
  rw [Overflows, Overflows, hk, hplace, continues_cons, and_assoc, List.getElem?_cons_succ]
  rfl

theorem goesOn_cons (hlast : 0 < layout.lastPlace) :
    layout.GoesOn (group :: groups) ↔
      layout.announces 0 group = true ∧ layout.tail.GoesOn groups := by
  obtain ⟨k, hk⟩ : ∃ k, layout.lastPlace = k + 1 := ⟨layout.lastPlace - 1, by omega⟩
  have hplace : layout.tail.lastPlace = k := by
    rw [tail, hk, Nat.add_sub_cancel]
  rw [GoesOn, GoesOn, hk, hplace, continues_cons, and_assoc, List.getElem?_cons_succ]
  rfl

theorem breaksOff_cons (hlast : 0 < layout.lastPlace) :
    layout.BreaksOff (group :: groups) ↔
      layout.announces 0 group = true ∧ layout.tail.BreaksOff groups := by
  have hplace : layout.tail.lastPlace = layout.lastPlace - 1 := rfl
  rw [BreaksOff, BreaksOff, List.length_cons, continues_cons]
  constructor
  · rintro ⟨hlength, hmore, hrest⟩
    exact ⟨hmore, by omega, hrest⟩
  · rintro ⟨hmore, hlength, hrest⟩
    exact ⟨by omega, hmore, hrest⟩

/-! ## Groups that are cut off -/

theorem Continues.of_append {more : List UInt8} (h : layout.Continues (groups ++ more) n)
    (hn : n ≤ groups.length) : layout.Continues groups n := by
  intro i hi
  have hgroup := h i hi
  rwa [List.getElem?_append_left (by omega)] at hgroup

/-- The first groups of a chain break off, when all groups but the last announce another one. -/
theorem breaksOff_of_append {missing : List UInt8} (hne : missing ≠ [])
    (h : layout.Continues (groups ++ missing) ((groups ++ missing).length - 1))
    (hlength : (groups ++ missing).length ≤ layout.lastPlace + 1) : layout.BreaksOff groups := by
  have hpos := List.length_pos_iff.mpr hne
  rw [List.length_append] at h hlength
  exact ⟨by omega, (h.mono (by omega)).of_append (Nat.le_refl _)⟩

end Layout

theorem testBit_seven (group : UInt8) : group.toNat.testBit 7 = decide (128 ≤ group.toNat) := by
  have hlt := group.toNat_lt
  rw [Nat.testBit_eq_decide_div_mod_eq]
  congr 1
  apply propext
  omega

/-- In the shortest chain of a number every group but the last announces another one. -/
theorem continues_groups (lastPlace shift lastBound n : Nat) :
    (Layout.uniform lastPlace shift lastBound).Continues (groups n) ((groups n).length - 1) := by
  induction n using Nat.strongRecOn with
  | ind n ih =>
      by_cases hn : n < 128
      · rw [groups_of_lt hn]
        exact Layout.continues_zero
      · have hbyte : (UInt8.ofNat (128 + n % 128)).toNat = 128 + n % 128 := by
          rw [UInt8.toNat_ofNat']
          omega
        rw [groups_of_le (by omega)]
        refine Layout.continues_cons_of_ne_nil (groups_ne_nil _) ?_ (ih (n / 128) (by omega))
        change (UInt8.ofNat (128 + n % 128)).toNat.testBit 7 = true
        rw [testBit_seven, hbyte]
        exact decide_eq_true (Nat.le_add_right _ _)

end WordStream.Chain
