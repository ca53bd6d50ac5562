/-!
# Chains of seven-bit groups

Both formats spell a number as a chain of bytes that hold seven bits each, the low bits first; the
top bit of a byte says that another one follows.
-/

namespace WordStream.Chain

/-- The shortest chain that spells `n`. -/
def groups (n : Nat) : List UInt8 :=
  if n < 128 then [UInt8.ofNat n]
  else UInt8.ofNat (128 + n % 128) :: groups (n / 128)
termination_by n
decreasing_by omega

theorem groups_ne_nil (n : Nat) : groups n ≠ [] := by
  unfold groups
  split <;> simp

end WordStream.Chain
