/-!
# Binary64 numbers

A number of a document is kept as the 64 bits of an IEEE 754 double. All
arithmetic is exact on naturals and rounds once, to the nearest double with
ties to even, so every value can be computed by the kernel.

A number of a document rounds twice: its significand becomes a double, which is
then multiplied or divided by the double of a power of ten. The result can be
one unit in the last place away from the double nearest to the decimal.
-/

namespace ElmCodec

def twoTo (e : Nat) : Nat := Nat.pow 2 e

def tenTo (e : Nat) : Nat := Nat.pow 10 e

structure Double where
  bits : UInt64
  deriving DecidableEq, Repr

namespace Double

def zero : Double := ⟨0⟩

def infinity : Double := ⟨0x7FF0000000000000⟩

def nan : Double := ⟨0x7FF8000000000000⟩

def neg (x : Double) : Double := ⟨x.bits ^^^ 0x8000000000000000⟩

def isNegative (x : Double) : Bool := decide (0x8000000000000000 ≤ x.bits)

def abs (x : Double) : Double := if x.isNegative then x.neg else x

def fraction (x : Double) : Nat := x.bits.toNat % twoTo 52

def biased (x : Double) : Nat := x.bits.toNat / twoTo 52 % twoTo 11

def isFinite (x : Double) : Bool := decide (x.biased < 2047)

/-- The magnitude of a finite double is `significand * 2 ^ exponent`. -/
def significand (x : Double) : Nat :=
  if x.biased = 0 then x.fraction else x.fraction + twoTo 52

def exponent (x : Double) : Int := (max x.biased 1 : Nat) - 1075

/-- Numerator and denominator of `num / den / 2 ^ e`. -/
def scaled (num den : Nat) : Int → Nat × Nat
  | .ofNat e => (num, den * twoTo e)
  | .negSucc e => (num * twoTo (e + 1), den)

/-- The exponent of the last place of `num / den`: 53 significant bits,
unless that lies below the smallest double. -/
def lastPlace (num den : Nat) : Int :=
  let e : Int := (num.log2 : Int) - den.log2 - 53
  let (n, d) := scaled num den e
  max (if twoTo 53 ≤ n / d then e + 1 else e) (-1074)

/-- The double nearest to `num / den`, ties to even; infinite past the largest double. -/
def ofRatio (num den : Nat) : Double :=
  if num = 0 then zero
  else
    let e := lastPlace num den
    let (n, d) := scaled num den e
    let q := n / d
    let r := n % d
    let up := d < 2 * r ∨ (2 * r = d ∧ q % 2 = 1)
    let bits := (e + 1074).toNat * twoTo 52 + (if up then q + 1 else q)
    if infinity.bits.toNat ≤ bits then infinity else ⟨UInt64.ofNat bits⟩

def ofNat (n : Nat) : Double := ofRatio n 1

def ofInt (i : Int) : Double :=
  if i < 0 then (ofNat i.natAbs).neg else ofNat i.natAbs

def ofScaled (num den : Nat) : Int → Double
  | .ofNat e => ofRatio (num * twoTo e) den
  | .negSucc e => ofRatio num (den * twoTo (e + 1))

def mul (x y : Double) : Double :=
  ofScaled (x.significand * y.significand) 1 (x.exponent + y.exponent)

def div (x y : Double) : Double :=
  ofScaled x.significand y.significand (x.exponent - y.exponent)

def powerOfTen (places : Nat) : Double := ofNat (tenTo places)

/-- The largest power of ten that is a double. -/
def maxPlaces : Nat := 308

/-- Divides by a power of ten, at most `maxPlaces` places at a time. -/
def shrink (x : Double) (places : Nat) : Double :=
  if places ≤ maxPlaces then x.div (powerOfTen places)
  else if x = zero then zero
  else shrink (x.div (powerOfTen maxPlaces)) (places - maxPlaces)
termination_by places
decreasing_by simp [maxPlaces] at *; omega

/-- The magnitude `digits * 10 ^ exponent`, or nothing when it is too large. -/
def ofDecimal? (digits : Nat) : Int → Option Double
  | .ofNat places =>
    let x := ofNat digits
    if x = zero then some zero
    else if maxPlaces < places then none
    else
      let y := x.mul (powerOfTen places)
      if y = infinity then none else some y
  | .negSucc places => some (shrink (ofNat digits) (places + 1))

/-- The double nearest to `digits * 10 ^ exponent`. What lies far outside the
range of doubles is told from the number of digits. -/
def nearest (digits : Nat) : Int → Double
  | .ofNat places =>
    if digits = 0 then zero
    else if maxPlaces < places then infinity
    else ofNat (digits * tenTo places)
  | .negSucc places =>
    if digits.log2 + 1100 < 3 * places then zero else ofRatio digits (tenTo (places + 1))

end Double

end ElmCodec
