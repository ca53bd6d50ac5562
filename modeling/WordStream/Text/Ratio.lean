/-!
# Ratios with fixed places

A ratio of two counts is rounded twice: to the 53 significant bits of a float, and then to the places
of the text.  Both roundings go to the nearest number, and from the middle to the even one.  A ratio
such as 1/200, which no float equals, is thereby printed with the side on which its float lies.
-/

namespace WordStream.Text

/-- The integer nearest to `num / den`, the even one of two that are equally near. -/
def roundDiv (num den : Nat) : Nat :=
  let quotient := num / den
  let twice := 2 * (num % den)
  if twice < den then quotient
  else if den < twice then quotient + 1
  else quotient + quotient % 2

structure Ratio where
  num : Nat
  den : Nat
  deriving DecidableEq

namespace Ratio

def floatBits : Nat := 53

/-- The number of doublings of `num / den`, less the number of halvings, that bring it to at least
one and below two. -/
def scale (r : Ratio) : Int :=
  let guess : Int := (r.den.log2 : Int) - r.num.log2
  if r.den <<< (-guess).toNat ≤ r.num <<< guess.toNat then guess else guess + 1

/-- The float nearest to a ratio, as a fraction; of two equally near, the one of even mantissa. -/
def toFloat (r : Ratio) : Ratio :=
  if r.num = 0 then ⟨0, 1⟩
  else
    let shift := r.scale + (floatBits - 1 : Int)
    let mantissa := roundDiv (r.num <<< shift.toNat) (r.den <<< (-shift).toNat)
    ⟨mantissa <<< (-shift).toNat, 1 <<< shift.toNat⟩

/-- The decimal text of the float nearest to a ratio, with `places` digits after the point. -/
def fixed (places : Nat) (r : Ratio) : String :=
  let float := r.toFloat
  let unit := Nat.pow 10 places
  let scaled := roundDiv (float.num * unit) float.den
  let fraction := (Nat.toDigits 10 (scaled % unit)).leftpad places '0'
  s!"{scaled / unit}." ++ String.ofList fraction

-- Of two texts that are equally near, the one with the even digit is taken.
example : (mk 1 8).fixed 2 = "0.12" ∧ (mk 3 8).fixed 2 = "0.38" := by decide +kernel

-- The float nearest to one two-hundredth lies above it.
example : (mk 1 200).fixed 2 = "0.01" := by decide +kernel

end Ratio

end WordStream.Text
