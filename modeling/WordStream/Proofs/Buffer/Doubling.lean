import Mathlib.Data.Nat.Find
import Mathlib.Logic.Function.Iterate
import Mathlib.Order.Bounds.Basic
import Mathlib.Order.WellFounded
import WordStream.Proofs.Buffer.Motion
import WordStream.Proofs.Buffer.Splice

/-!
# Capacities by doubling

A buffer that lacks room grows again and again, and every growth doubles its capacity, from the floor on.
It stops at the first capacity of this chain that is enough, so that no growth was made without need:
each of the capacities that it has left behind was too small for what lies before its position, and for
the room that was asked for behind it.
-/

namespace WordStream

namespace Buffer

/-! ## The chain -/

/-- The capacity after some growths, one after the other. -/
def doublings (capacity turns : Nat) : Nat := grownCapacity^[turns] capacity

@[simp] theorem doublings_zero (capacity : Nat) : doublings capacity 0 = capacity := rfl

theorem doublings_succ (capacity turns : Nat) :
    doublings capacity (turns + 1) = grownCapacity (doublings capacity turns) :=
  Function.iterate_succ_apply' _ _ _

theorem doublings_grownCapacity (capacity turns : Nat) :
    doublings (grownCapacity capacity) turns = doublings capacity (turns + 1) := rfl

theorem doublings_add (capacity m n : Nat) :
    doublings capacity (m + n) = doublings (doublings capacity m) n := by
  rw [Nat.add_comm]
  exact Function.iterate_add_apply _ _ _ _

theorem doublings_strictMono (capacity : Nat) : StrictMono (doublings capacity) :=
  strictMono_nat_of_lt_succ fun turns => by
    rw [doublings_succ]
    exact capacity_lt_grownCapacity _

/-- Any size is reached, and there is a first time. -/
theorem exists_least_doubling (capacity needed : Nat) :
    ∃ turns, IsLeast {i | needed ≤ doublings capacity i} turns := by
  have hreached : ∃ i, needed ≤ doublings capacity i :=
    ⟨needed, (doublings_strictMono capacity).le_apply⟩
  exact ⟨Nat.find hreached, Nat.find_spec hreached, fun i hi => Nat.find_min' hreached hi⟩

theorem least_doubling_eq_zero {capacity needed turns : Nat}
    (h : IsLeast {i | needed ≤ doublings capacity i} turns) : turns = 0 ↔ needed ≤ capacity := by
  constructor
  · rintro rfl
    exact h.1
  · intro hle
    exact Nat.le_zero.mp (h.2 hle)

/-- Before the first sufficient capacity all are too small. -/
theorem doublings_lt_of_lt {capacity needed turns i : Nat}
    (h : IsLeast {i | needed ≤ doublings capacity i} turns) (hi : i < turns) :
    doublings capacity i < needed :=
  Nat.lt_of_not_le fun hle => absurd (h.2 hle) (Nat.not_le_of_lt hi)

theorem isLeast_doubling {capacity needed turns : Nat} (hlacking : doublings capacity turns < needed)
    (henough : needed ≤ doublings capacity (turns + 1)) :
    IsLeast {i | needed ≤ doublings capacity i} (turns + 1) :=
  ⟨henough, fun _ hi =>
    (doublings_strictMono capacity).lt_iff_lt.mp (Nat.lt_of_lt_of_le hlacking hi)⟩

/-! ## The loop -/

/-- The buffer after some growths, one after the other. -/
def grownTimes (turns : Nat) (b : Buffer) : Buffer := grown^[turns] b

theorem grownTimes_succ (turns : Nat) (b : Buffer) :
    b.grownTimes (turns + 1) = (b.grownTimes turns).grown :=
  Function.iterate_succ_apply' _ _ _

@[simp] theorem grownTimes_position (turns : Nat) (b : Buffer) :
    (b.grownTimes turns).position = b.position := by
  induction turns with
  | zero => rfl
  | succ turns ih => rw [grownTimes_succ, grown_position, ih]

@[simp] theorem grownTimes_capacity (turns : Nat) (b : Buffer) :
    (b.grownTimes turns).capacity = doublings b.capacity turns := by
  induction turns with
  | zero => rfl
  | succ turns ih => rw [grownTimes_succ, grown_capacity, ih, doublings_succ]

/-- As long as the chain of capacities is granted, every round of growth finds a buffer that fits. -/
theorem Fits.grownTimes {b : Buffer} (h : b.Fits) {turns : Nat}
    (hgranted : ∀ i < turns, 2 * doublings b.capacity i ≤ Limits.maxAllocation) :
    (b.grownTimes turns).Fits := by
  induction turns with
  | zero => exact h
  | succ turns ih =>
      have hfits := ih fun i hi => hgranted i (Nat.lt_succ_of_lt hi)
      rw [grownTimes_succ]
      refine grown_fits hfits.position_le ?_
      rw [grownTimes_capacity]
      exact hgranted turns (Nat.lt_succ_self turns)

/-- In every round all bytes before the position are there to be copied, and room is made behind them. -/
theorem Fits.rounds_make_room {b : Buffer} (h : b.Fits) {turns : Nat}
    (hgranted : ∀ i < turns, 2 * doublings b.capacity i ≤ Limits.maxAllocation) {i : Nat}
    (hi : i < turns) :
    (b.grownTimes i).written.size = b.position ∧ b.position < (b.grownTimes (i + 1)).capacity := by
  have hfits : (b.grownTimes i).Fits := h.grownTimes fun j hj => hgranted j (Nat.lt_trans hj hi)
  have hround := hfits.growth_makes_room
  rwa [grownTimes_position, ← grownTimes_succ] at hround

/-- However often a buffer grows, it keeps what lies before the position, and zeros follow. -/
theorem toList_grownTimes {b : Buffer} (h : b.position ≤ b.capacity) (turns : Nat) :
    (b.grownTimes (turns + 1)).bytes.toList =
      b.bytes.toList.take b.position ++
        List.replicate (doublings b.capacity (turns + 1) - b.position) 0 := by
  have hkept : (b.bytes.toList.take b.position).length = b.position := by
    rw [List.length_take, Array.length_toList]
    exact Nat.min_eq_left h
  have hinside : ∀ turns, (b.grownTimes turns).position ≤ (b.grownTimes turns).capacity := by
    intro turns
    rw [grownTimes_position, grownTimes_capacity]
    exact Nat.le_trans h ((doublings_strictMono b.capacity).monotone (Nat.zero_le turns))
  induction turns with
  | zero => exact toList_grown h
  | succ turns ih =>
      rw [grownTimes_succ, toList_grown (hinside _), ih, grownTimes_position, grownTimes_capacity,
        List.take_left' hkept, doublings_succ b.capacity (turns + 1)]

/-- The loop ends with the first sufficient capacity. -/
theorem growTo_of_least {needed turns : Nat} {b : Buffer}
    (hleast : IsLeast {i | needed ≤ doublings b.capacity i} turns)
    (hgranted : ∀ i < turns, 2 * doublings b.capacity i ≤ Limits.maxAllocation) :
    growTo needed b = .ok () (b.grownTimes turns) := by
  -- Induction on the turns that are left: each makes a step along the chain.
  induction turns generalizing b with
  | zero =>
      have henough : needed ≤ b.capacity := hleast.1
      rw [growTo, if_neg (Nat.not_lt_of_le henough)]
      rfl
  | succ turns ih =>
      have hlacking : b.capacity < needed := doublings_lt_of_lt hleast (Nat.succ_pos turns)
      have hgrow : 2 * b.capacity ≤ Limits.maxAllocation := hgranted 0 (Nat.succ_pos turns)
      have hrest : IsLeast {i | needed ≤ doublings b.grown.capacity i} turns := by
        rw [grown_capacity]
        refine ⟨hleast.1, fun i hi => ?_⟩
        exact Nat.le_of_succ_le_succ (hleast.2 (show needed ≤ doublings b.capacity (i + 1) from hi))
      rw [growTo, if_pos hlacking, if_pos hgrow, ih hrest]
      · rfl
      · intro i hi
        rw [grown_capacity, doublings_grownCapacity]
        exact hgranted (i + 1) (Nat.succ_lt_succ hi)

theorem two_mul_le_grownCapacity (capacity : Nat) : 2 * capacity ≤ grownCapacity capacity :=
  Nat.le_max_left _ _

/-- Room is made by going along the chain of doublings, as far as the first capacity with room for the
bytes asked for, if the chain gets there before it passes the largest allocation.  Where there is room
already, nothing changes, and asking again changes nothing either; where there is none, the bytes before
the position are kept, and only zeros follow on them. -/
theorem ensure_ends_with_least_doubling {b : Buffer} {count : Nat}
    (hinside : b.position ≤ b.capacity) (hcount : b.position + count < Limits.addressBound)
    (hchain : ∀ i, doublings b.capacity i < b.position + count →
      doublings b.capacity (i + 1) ≤ Limits.maxAllocation) :
    ∃ turns b', IsLeast {i | b.position + count ≤ doublings b.capacity i} turns ∧
      ensure count b = .ok () b' ∧ b'.capacity = doublings b.capacity turns ∧
      b'.position = b.position ∧
      (b.position + count ≤ b.capacity → b' = b) ∧
      (b.capacity < b.position + count →
        b'.capacity ≤ max 10 (2 * (b.position + count - 1)) ∧
        b'.bytes.toList = b.bytes.toList.take b.position ++
          List.replicate (b'.capacity - b.position) 0) ∧
      ensure count b' = .ok () b' := by
  obtain ⟨turns, hleast⟩ := exists_least_doubling b.capacity (b.position + count)
  have hgranted : ∀ i < turns, 2 * doublings b.capacity i ≤ Limits.maxAllocation := by
    intro i hi
    have hnext := hchain i (doublings_lt_of_lt hleast hi)
    rw [doublings_succ] at hnext
    exact Nat.le_trans (two_mul_le_grownCapacity _) hnext
  have hrun : ensure count b = .ok () (b.grownTimes turns) := by
    rw [ensure, if_pos hcount, growTo_of_least hleast hgranted]
  refine ⟨turns, b.grownTimes turns, hleast, hrun, grownTimes_capacity turns b,
    grownTimes_position turns b, fun hroom => ?_, fun hlacking => ?_, ?_⟩
  · rw [(least_doubling_eq_zero hleast).mpr hroom]
    rfl
  · obtain ⟨before, rfl⟩ : ∃ before, turns = before + 1 :=
      Nat.exists_eq_succ_of_ne_zero fun hzero =>
        absurd ((least_doubling_eq_zero hleast).mp hzero) (Nat.not_le_of_lt hlacking)
    have hlast := doublings_lt_of_lt hleast (Nat.lt_succ_self before)
    rw [grownTimes_capacity]
    refine ⟨?_, toList_grownTimes hinside before⟩
    rw [doublings_succ, grownCapacity]
    change max _ 10 ≤ _
    omega
  · have henough : b.position + count ≤ (b.grownTimes turns).capacity := by
      rw [grownTimes_capacity]
      exact hleast.1
    rw [ensure, grownTimes_position, if_pos hcount, growTo, if_neg (Nat.not_lt_of_le henough)]

/-- Five bytes behind ten others in an array of twelve, which doubles once; and twenty-five in an array of
none, which grows to the floor and doubles twice. -/
theorem ensure_least_doubling_of_twelve_and_of_none :
    (∃ b', ensure 5 ⟨Array.replicate 12 0xFF, 10⟩ = .ok () b' ∧
      b'.bytes.toList = List.replicate 10 0xFF ++ List.replicate 14 0) ∧
    ∃ b', ensure 25 ⟨#[], 0⟩ = .ok () b' ∧ b'.bytes.toList = List.replicate 40 0 := by
  have hwithin : ∀ {capacity needed} turns, needed ≤ doublings capacity turns →
      doublings capacity turns ≤ Limits.maxAllocation →
      ∀ i, doublings capacity i < needed → doublings capacity (i + 1) ≤ Limits.maxAllocation := by
    intro capacity needed turns henough hle i hi
    have hmono := doublings_strictMono capacity
    have hbefore : i < turns := hmono.lt_iff_lt.mp (Nat.lt_of_lt_of_le hi henough)
    exact Nat.le_trans (hmono.monotone hbefore) hle
  have hone : IsLeast {i | 15 ≤ doublings 12 i} (0 + 1) := isLeast_doubling (by decide) (by decide)
  have hthree : IsLeast {i | 25 ≤ doublings 0 i} (2 + 1) := isLeast_doubling (by decide) (by decide)
  constructor
  · have hroom : ∀ i, doublings 12 i < 10 + 5 → doublings 12 (i + 1) ≤ Limits.maxAllocation :=
      hwithin 1 hone.1 (by decide)
    obtain ⟨turns, b', hleast, hrun, hcapacity, -, -, hgrew, -⟩ :=
      ensure_ends_with_least_doubling (b := ⟨Array.replicate 12 0xFF, 10⟩) (by decide) (by decide)
        hroom
    rw [hleast.unique hone] at hcapacity
    refine ⟨b', hrun, (hgrew (by decide)).2.trans ?_⟩
    rw [hcapacity]
    rfl
  · have hroom : ∀ i, doublings 0 i < 0 + 25 → doublings 0 (i + 1) ≤ Limits.maxAllocation :=
      hwithin 3 hthree.1 (by decide)
    obtain ⟨turns, b', hleast, hrun, hcapacity, -, -, hgrew, -⟩ :=
      ensure_ends_with_least_doubling (b := ⟨#[], 0⟩) (by decide) (by decide) hroom
    rw [hleast.unique hthree] at hcapacity
    refine ⟨b', hrun, (hgrew (by decide)).2.trans ?_⟩
    rw [hcapacity]
    rfl

/-! ## Growth where it is needed -/

/-- A buffer and a later one, no further back, that has come along the chain and did not grow without
need: no capacity that it left behind lies further than `margin` bytes past the later position. -/
structure Doubles (margin : Nat) (b b' : Buffer) : Prop where
  position_le : b.position ≤ b'.position
  needed : ∃ turns, b'.capacity = doublings b.capacity turns ∧
    ∀ i < turns, doublings b.capacity i ≤ b'.position + margin

/-- What does not move back and leaves the capacity as it is. -/
theorem Doubles.of_capacity_eq {margin : Nat} {b b' : Buffer} (hposition : b.position ≤ b'.position)
    (hcapacity : b'.capacity = b.capacity) : Doubles margin b b' :=
  ⟨hposition, 0, hcapacity, fun i hi => absurd hi (Nat.not_lt_zero i)⟩

theorem doubles_stepwise (margin : Nat) : Stepwise (Doubles margin) where
  refl _ := .of_capacity_eq (Nat.le_refl _) rfl
  trans {b b' b''} h h' := by
    obtain ⟨turns, hcapacity, hsmall⟩ := h.needed
    obtain ⟨turns', hcapacity', hsmall'⟩ := h'.needed
    have hle := h'.position_le
    refine ⟨Nat.le_trans h.position_le hle, turns + turns', ?_, fun i hi => ?_⟩
    · rw [hcapacity', hcapacity, doublings_add]
    · by_cases hfirst : i < turns
      · exact Nat.le_trans (hsmall i hfirst) (Nat.add_le_add_right hle margin)
      · have hlater := hsmall' (i - turns) (by omega)
        rwa [hcapacity, ← doublings_add, Nat.add_sub_cancel' (Nat.le_of_not_lt hfirst)] at hlater

/-- Capacity that is needed is at most twice as large as the place up to which it is. -/
theorem Doubles.capacity_le {margin : Nat} {b b' : Buffer} (h : Doubles margin b b') :
    b'.capacity ≤ max b.capacity (max 10 (2 * (b'.position + margin))) := by
  obtain ⟨turns, hcapacity, hsmall⟩ := h.needed
  cases turns with
  | zero =>
      rw [hcapacity]
      exact Nat.le_max_left _ _
  | succ before =>
      have hlast := hsmall before (Nat.lt_succ_self before)
      rw [hcapacity, doublings_succ, grownCapacity]
      change max _ 10 ≤ _
      omega

/-- Up to one growth further on, a buffer has grown once if it had to, and not at all if not. -/
theorem Doubles.capacity_eq {b b' : Buffer} (h : Doubles 0 b b') (hroom : b'.position < b'.capacity)
    (hnear : b'.position < grownCapacity b.capacity) :
    b'.capacity = if b'.position < b.capacity then b.capacity else max (2 * b.capacity) 10 := by
  obtain ⟨turns, hcapacity, hsmall⟩ := h.needed
  match turns with
  | 0 =>
      have hsame : b'.capacity = b.capacity := hcapacity
      rw [hsame] at hroom
      rw [if_pos hroom, hsame]
  | 1 =>
      have hleft : b.capacity ≤ b'.position := hsmall 0 (by decide)
      rw [if_neg (Nat.not_lt_of_le hleft), hcapacity]
      rfl
  | turns + 2 =>
      have hleft : grownCapacity b.capacity ≤ b'.position := hsmall 1 (by omega)
      exact absurd hnear (Nat.not_lt_of_le hleft)

theorem grown_doubles {margin : Nat} {b : Buffer} (h : b.capacity ≤ b.position + margin) :
    Doubles margin b b.grown :=
  ⟨Nat.le_refl _, 1, grown_capacity b, fun i hi => by
    rw [Nat.lt_one_iff.mp hi]
    exact h⟩

theorem growTo_doubles {margin needed : Nat} {b : Buffer} (h : needed ≤ b.position + (margin + 1)) :
    Doubles margin b (leaves (growTo needed b)) := by
  fun_induction growTo needed b with
  | case1 b hlt hgrow ih =>
      have hfull : b.capacity ≤ b.position + margin := by omega
      exact (doubles_stepwise margin).trans (grown_doubles hfull) (ih h)
  | case2 b hlt hgrow => exact (doubles_stepwise margin).refl b
  | case3 b hle => exact (doubles_stepwise margin).refl b

theorem ensure_doubles {margin count : Nat} (h : count ≤ margin + 1) :
    Moves (Doubles margin) (ensure count) := by
  intro b
  unfold ensure
  split
  · exact growTo_doubles (Nat.add_le_add_left h _)
  · exact (doubles_stepwise margin).refl b

theorem growIfFull_doubles (margin : Nat) : Moves (Doubles margin) growIfFull := by
  intro b
  by_cases hfull : b.isFull = true
  · have hend : b.capacity ≤ b.position := by simpa [isFull] using hfull
    rw [growIfFull, if_pos hfull, grow]
    split
    · exact grown_doubles (Nat.le_trans hend (Nat.le_add_right _ _))
    · exact (doubles_stepwise margin).refl b
  · rw [growIfFull, if_neg hfull]
    exact (doubles_stepwise margin).refl b

theorem modifyCurrent_doubles (margin : Nat) (f : UInt8 → UInt8) :
    Moves (Doubles margin) (modifyCurrent f) := by
  intro b
  by_cases hroom : b.position < b.capacity
  · rw [modifyCurrent_ok hroom]
    exact .of_capacity_eq (Nat.le_refl _) (mapCurrent_capacity f b)
  · have hrun : modifyCurrent f b = .error (.outOfBounds b.position b.bytes.size) b := if_neg hroom
    rw [hrun]
    exact (doubles_stepwise margin).refl b

theorem doubles_movesOnSteps (margin : Nat) : MovesOnSteps (Doubles margin) where
  toStepwise := doubles_stepwise margin
  modifyCurrent := modifyCurrent_doubles margin
  step _ := .of_capacity_eq (Nat.le_succ _) rfl
  growIfFull := growIfFull_doubles margin

end Buffer

end WordStream
