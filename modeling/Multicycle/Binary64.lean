/-
Non-negative doubles in exact arithmetic: a significand of 53 bits times a power of two. Products,
quotients and decimal texts are rounded once, from the exact value, ties to even.
-/
namespace Multicycle

/-- The quotient rounded to the nearest integer, a tie to the even one. -/
def roundDiv (num den : Nat) : Nat :=
  let q := num / den
  let r := num % den
  if den < 2 * r ∨ (den = 2 * r ∧ q % 2 = 1) then q + 1 else q

/-- The rounded quotient is at most half a unit away from the exact one. -/
theorem roundDiv_near (num den : Nat) (h : 0 < den) :
    2 * num ≤ 2 * (roundDiv num den * den) + den ∧
      2 * (roundDiv num den * den) ≤ 2 * num + den := by
  have hn := Nat.div_add_mod num den
  have hr := Nat.mod_lt num h
  have up : (num / den + 1) * den = den * (num / den) + den := by
    rw [Nat.add_mul, Nat.mul_comm, Nat.one_mul]
  have down : num / den * den = den * (num / den) := Nat.mul_comm ..
  unfold roundDiv
  simp only
  split
  · rw [up]; omega
  · rw [down]; omega

/-- The number `significand * 2 ^ exponent`. The significand is zero or has 53 bits; the exponent
is not bounded, so a number too large for the format is still a number, which `isFinite` tells
apart. -/
structure Binary64 where
  significand : Nat
  exponent : Int
  deriving DecidableEq

namespace Binary64

/-- The nearest double to `num / den`, both positive, when it has exponent `e` or the next one. -/
def nearestAt (num den : Nat) (e : Int) : Binary64 :=
  let s := roundDiv (num <<< (-e).toNat) (den <<< e.toNat)
  if s = 1 <<< 53 then ⟨1 <<< 52, e + 1⟩ else ⟨s, e⟩

/-- The nearest double to `num / den`, for a positive `den`. -/
def nearest (num den : Nat) : Binary64 :=
  if num = 0 then ⟨0, 0⟩
  else
    let e : Int := Nat.log2 num - Nat.log2 den - 52
    if num <<< (-e).toNat < (den <<< e.toNat) <<< 52 then nearestAt num den (e - 1)
    else nearestAt num den e

def ofNat (n : Nat) : Binary64 := nearest n 1

def mul (x y : Binary64) : Binary64 :=
  let e := x.exponent + y.exponent
  nearest ((x.significand * y.significand) <<< e.toNat) (1 <<< (-e).toNat)

/-- The rounded quotient, for a divisor that is not zero. -/
def div (x y : Binary64) : Binary64 :=
  let e := x.exponent - y.exponent
  nearest (x.significand <<< e.toNat) (y.significand <<< (-e).toNat)

/-- Whether the number lies within the range of the format. -/
def isFinite (x : Binary64) : Bool := x.exponent ≤ 971

/-- The bits of the format, for a number in the normal range or zero. -/
def toBits (x : Binary64) : Nat :=
  if x.significand = 0 then 0 else ((x.exponent + 1075).toNat <<< 52) + (x.significand - (1 <<< 52))

/-- The decimal text with a fixed number of places. -/
def fixed (x : Binary64) (places : Nat) : String :=
  let unit := Nat.pow 10 places
  let scaled := roundDiv ((x.significand * unit) <<< x.exponent.toNat) (1 <<< (-x.exponent).toNat)
  let fraction := (Nat.toDigits 10 (scaled % unit)).leftpad places '0'
  toString (scaled / unit) ++ "." ++ String.ofList fraction

end Binary64

end Multicycle
