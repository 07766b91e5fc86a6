import ElmCodec.Json.Double

/-!
# Shortest decimals

The decimal text of a double has the fewest digits that read back as the same
double under rounding to nearest, and of those the nearest to it. It is written with a
point while that takes no more than sixteen digits before it and a few zeros
after it, and with an exponent beyond.
-/

namespace ElmCodec.Double

structure Ratio where
  num : Nat
  den : Nat

def dyadic (n : Nat) : Int → Ratio
  | .ofNat e => ⟨n * twoTo e, 1⟩
  | .negSucc e => ⟨n, twoTo (e + 1)⟩

def Ratio.lt (x y : Ratio) : Bool := decide (x.num * y.den < y.num * x.den)

def Ratio.le (x y : Ratio) : Bool := decide (x.num * y.den ≤ y.num * x.den)

def Ratio.gap (x y : Ratio) : Ratio :=
  let a := x.num * y.den
  let b := y.num * x.den
  ⟨max a b - min a b, x.den * y.den⟩

/-- The place of the point: the value is at least `10 ^ (place - 1)` and below `10 ^ place`. -/
def pointPlace (x : Ratio) : Int :=
  if x.den ≤ x.num then (Nat.toDigits 10 (x.num / x.den)).length
  else
    let zeros := (Nat.toDigits 10 (x.den / x.num)).length
    if x.num * tenTo (zeros - 1) = x.den then 2 - (zeros : Int) else 1 - (zeros : Int)

def decimal (n : Nat) : Int → Ratio
  | .ofNat e => ⟨n * tenTo e, 1⟩
  | .negSucc e => ⟨n, tenTo (e + 1)⟩

/-- The whole multiples of `10 ^ e` that a value holds. -/
def multiples (x : Ratio) : Int → Nat
  | .ofNat e => x.num / (x.den * tenTo e)
  | .negSucc e => x.num * tenTo (e + 1) / x.den

/-- The nearer of two decimals that both read back; a tie goes to the even one. -/
def nearer (x : Ratio) (n : Nat) (e : Int) : Nat :=
  let below := x.gap (decimal n e)
  let above := x.gap (decimal (n + 1) e)
  if below.lt above then n
  else if above.lt below then n + 1
  else if n % 2 = 0 then n else n + 1

/-- Looks for a decimal of `digits` digits or more that reads back: digits and exponent. -/
def search (x : Ratio) (readsBack : Ratio → Bool) (place : Int) :
    (fuel : Nat) → (digits : Nat) → Nat × Int
  | 0, digits => (multiples x (place - digits), place - digits)
  | fuel + 1, digits =>
    let e := place - digits
    let n := multiples x e
    match readsBack (decimal n e), readsBack (decimal (n + 1) e) with
    | true, true => (nearer x n e, e)
    | true, false => (n, e)
    | false, true => (n + 1, e)
    | false, false => search x readsBack place fuel (digits + 1)

def shortest (x : Double) : Nat × Int :=
  let m := x.significand
  let e := x.exponent
  let low := if m = twoTo 52 ∧ -1074 < e then dyadic (4 * m - 1) (e - 2) else dyadic (2 * m - 1) (e - 1)
  let high := dyadic (2 * m + 1) (e - 1)
  let readsBack (y : Ratio) : Bool :=
    if m % 2 = 0 then low.le y && y.le high else low.lt y && y.lt high
  let value := dyadic m e
  search value readsBack (pointPlace value) 17 1

def zeros (count : Nat) : List Char := List.replicate count '0'

structure DecimalStyle where
  /-- The most zeros between the point and the first digit. -/
  maxZeros : Nat
  /-- Whether an exponent that is not negative shows its sign. -/
  plus : Bool

namespace DecimalStyle

def exponentText (style : DecimalStyle) (power : Int) : List Char :=
  'e' :: (if style.plus && 0 ≤ power then ['+'] else []) ++ (toString power).toList

/-- Decimal digits with a point `place` digits from their start, or an exponent. -/
def layout (style : DecimalStyle) (digits : List Char) (place : Int) : List Char :=
  let count : Int := digits.length
  if count ≤ place ∧ place ≤ 16 then digits ++ zeros (place - count).toNat ++ ['.', '0']
  else if 0 < place ∧ place ≤ 16 then
    digits.take place.toNat ++ '.' :: digits.drop place.toNat
  else if -(style.maxZeros : Int) ≤ place ∧ place ≤ 0 then
    '0' :: '.' :: zeros (-place).toNat ++ digits
  else
    match digits with
    | [digit] => digit :: style.exponentText (place - 1)
    | digits => digits.take 1 ++ '.' :: digits.drop 1 ++ style.exponentText (place - 1)

end DecimalStyle

def text (style : DecimalStyle) (x : Double) : String :=
  let magnitude :=
    if x.significand = 0 then ['0', '.', '0']
    else
      let (n, e) := x.shortest
      let digits := Nat.toDigits 10 n
      style.layout (digits.reverse.dropWhile (· = '0')).reverse (digits.length + e)
  String.ofList (if x.isNegative then '-' :: magnitude else magnitude)

end ElmCodec.Double
