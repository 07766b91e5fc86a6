import ElmCodec.Json.Reader
import Mathlib.Data.List.Basic

/-!
# Spellings of numbers

A number is spelled by whole digits without a leading zero, perhaps a fraction
and perhaps an exponent. What a spelling means is the double nearest to its
decimal. The reader computes a double of its own, which rounds more than once:
every spelling is read as that double, or refused if it is too large.
-/

namespace ElmCodec.Json

def Digits (text : List Char) : Prop := text ≠ [] ∧ ∀ c ∈ text, c.isDigit = true

instance (text : List Char) : Decidable (Digits text) :=
  decidable_of_iff ((!text.isEmpty && text.all Char.isDigit) = true) (by simp [Digits])

structure Exponent where
  mark : Char
  sign : Option Char
  digits : List Char

namespace Exponent

structure Legal (exponent : Exponent) : Prop where
  mark : exponent.mark = 'e' ∨ exponent.mark = 'E'
  sign : exponent.sign = none ∨ exponent.sign = some '+' ∨ exponent.sign = some '-'
  digits : Digits exponent.digits

def text (exponent : Exponent) : List Char :=
  exponent.mark :: (exponent.sign.toList ++ exponent.digits)

def isDown (exponent : Exponent) : Bool := exponent.sign == some '-'

def power (exponent : Exponent) : Int :=
  let power : Int := Text.natOfDigits exponent.digits
  if exponent.isDown then -power else power

end Exponent

structure Numeral where
  negative : Bool
  whole : List Char
  fraction : Option (List Char)
  exponent : Option Exponent

namespace Numeral

structure Legal (numeral : Numeral) : Prop where
  whole : Digits numeral.whole
  zero : numeral.whole.head? = some '0' → numeral.whole = ['0']
  fraction : ∀ digits, numeral.fraction = some digits → Digits digits
  exponent : ∀ exponent, numeral.exponent = some exponent → exponent.Legal

def fractionText : Option (List Char) → List Char
  | none => []
  | some digits => '.' :: digits

def exponentText : Option Exponent → List Char
  | none => []
  | some exponent => exponent.text

def magnitudeText (numeral : Numeral) : List Char :=
  numeral.whole ++ (fractionText numeral.fraction ++ exponentText numeral.exponent)

def text (numeral : Numeral) : List Char :=
  (if numeral.negative then ['-'] else []) ++ numeral.magnitudeText

def nearest (numeral : Numeral) : Double :=
  let fraction := numeral.fraction.getD []
  let power := (numeral.exponent.map Exponent.power).getD 0
  signed numeral.negative
    (.nearest (Text.natOfDigits (numeral.whole ++ fraction)) (power - fraction.length))

end Numeral

-- ---------------------------------------------------------------------------
-- The double that is computed
-- ---------------------------------------------------------------------------

/-- `digits * 10 ^ power`, where an exponent of more than 31 bits gives zero or nothing. -/
def Exponent.scale? (exponent : Exponent) (digits : Nat) (power : Int) : Option Double :=
  let (shift, excess) := absorb maxExponent 0 exponent.digits
  if excess.isEmpty then
    Double.ofDecimal? digits (power + if exponent.isDown then -(shift : Int) else shift)
  else if digits ≠ 0 ∧ !exponent.isDown then none
  else some .zero

namespace Numeral

def scale? (digits : Nat) (power : Int) : Option Exponent → Option Double
  | none => Double.ofDecimal? digits power
  | some exponent => exponent.scale? digits power

/-- The leading digits that fit 64 bits are made a double, which is multiplied or
divided by the double of a power of ten; nothing if that is too large. -/
def magnitude? (numeral : Numeral) : Option Double :=
  let (digits, excess) := absorb maxSignificand 0 numeral.whole
  match numeral.fraction with
  | some written =>
    let (digits, lost) := absorb maxSignificand digits written
    scale? digits (excess.length - (written.length - lost.length : Nat)) numeral.exponent
  | none =>
    if numeral.exponent.isNone ∧ excess = [] then some (.ofNat digits)
    else scale? digits excess.length numeral.exponent

def double? (numeral : Numeral) : Option Double := numeral.magnitude?.map (signed numeral.negative)

@[simp] theorem isSome_double? (numeral : Numeral) :
    numeral.double?.isSome = numeral.magnitude?.isSome := Option.isSome_map

/-- The number is the nearest double, which is finite. -/
structure IsNearest (numeral : Numeral) (value : Number) : Prop where
  finite : numeral.nearest.isFinite = true
  nearest : value.toDouble = numeral.nearest

/-- The number is the nearest double or the computed one, which is finite. -/
structure IsComputed (numeral : Numeral) (value : Number) : Prop where
  finite : numeral.double?.isSome = true
  computed : value.toDouble = numeral.nearest ∨ numeral.double? = some value.toDouble

end Numeral

-- ---------------------------------------------------------------------------
-- Where a number ends
-- ---------------------------------------------------------------------------

/-- No number goes on here. -/
def Ends (rest : List Char) : Prop :=
  ∀ c ∈ rest.head?, c.isDigit = false ∧ c ≠ '.' ∧ c ≠ 'e' ∧ c ≠ 'E'

theorem Digits.exists_cons (h : Digits text) : ∃ d ds, text = d :: ds ∧ d.isDigit = true := by
  cases text with
  | nil => exact absurd rfl h.1
  | cons d ds => exact ⟨d, ds, rfl, h.2 d List.mem_cons_self⟩

theorem ne_of_isDigit {c d : Char} (hc : c.isDigit = true) (hd : d.isDigit = false) : c ≠ d := by
  rintro rfl
  simp [hc] at hd

section
variable {rest : List Char} (h : Digits digits) (hr : ∀ c ∈ rest.head?, c.isDigit = false)
include h hr

theorem takeWhile_digits : (digits ++ rest).takeWhile Char.isDigit = digits := by
  rw [List.takeWhile_append_of_pos h.2]
  cases rest with
  | nil => simp
  | cons c rest => simp [hr c rfl]

theorem dropWhile_digits : (digits ++ rest).dropWhile Char.isDigit = rest := by
  rw [List.dropWhile_append_of_pos h.2]
  cases rest with
  | nil => rfl
  | cons c rest => simp [hr c rfl]

end

-- ---------------------------------------------------------------------------
-- Reading a number
-- ---------------------------------------------------------------------------

/-- What comes of reading a number: the double that is computed, or a fault if there is none. -/
inductive NumberRead (negative : Bool) (rest : List Char) :
    Option Double → Except Stop (Number × List Char) → Prop
  | number : value.toDouble = signed negative x →
    NumberRead negative rest (some x) (.ok (value, rest))
  | outOfRange : stop.cause = .numberOutOfRange → NumberRead negative rest none (.error stop)

theorem finishNumber_text (negative : Bool) (digits : Nat) (power : Int) (rest : List Char) :
    NumberRead negative rest (Double.ofDecimal? digits power)
      (finishNumber negative digits power rest) := by
  unfold finishNumber
  split
  · rename_i h
    rw [h]
    exact .number rfl
  · rename_i h
    rw [h]
    exact .outOfRange rfl

def readSign : List Char → Bool × List Char
  | '+' :: rest => (false, rest)
  | '-' :: rest => (true, rest)
  | rest => (false, rest)

theorem readSign_text {exponent : Exponent} (he : exponent.Legal) (rest : List Char) :
    readSign (exponent.sign.toList ++ exponent.digits ++ rest) =
      (exponent.isDown, exponent.digits ++ rest) := by
  rcases he.sign with h | h | h
  · obtain ⟨d, ds, hd, hdigit⟩ := he.digits.exists_cons
    have hplus := ne_of_isDigit (d := '+') hdigit rfl
    have hminus := ne_of_isDigit (d := '-') hdigit rfl
    simp [readSign, Exponent.isDown, h, hd, hplus, hminus]
  · simp [readSign, Exponent.isDown, h]
  · simp [readSign, Exponent.isDown, h]

section
variable {rest : List Char} (hr : Ends rest) (negative : Bool) (digits : Nat) (power : Int)
include hr

theorem readExponent_text {exponent : Exponent} (he : exponent.Legal) :
    NumberRead negative rest (exponent.scale? digits power)
      (readExponent negative digits power (exponent.sign.toList ++ exponent.digits ++ rest)) := by
  have hdigit : ∀ c ∈ rest.head?, c.isDigit = false := fun c hc => (hr c hc).1
  unfold readExponent
  split
  rename_i down text heq
  obtain ⟨rfl, rfl⟩ := Prod.mk.inj ((readSign_text he rest).symm.trans heq)
  simp only [takeWhile_digits he.digits hdigit, dropWhile_digits he.digits hdigit,
    Exponent.scale?]
  have hne : ¬ exponent.digits.isEmpty = true := by simp [he.digits.1]
  rw [if_neg hne]
  split
  · exact finishNumber_text negative digits _ rest
  · split
    · exact .outOfRange rfl
    · exact .number rfl

variable {exponent : Option Exponent} (he : ∀ e, exponent = some e → e.Legal)
include he

theorem head_exponentText :
    ∀ c ∈ (Numeral.exponentText exponent ++ rest).head?, c.isDigit = false ∧ c ≠ '.' := by
  intro c hc
  cases exponent with
  | none => exact ⟨(hr c hc).1, (hr c hc).2.1⟩
  | some e =>
    obtain rfl : e.mark = c := Option.some.inj hc
    rcases (he e rfl).mark with h | h
    · simp [h]
    · simp [h]

theorem readScale_text :
    NumberRead negative rest (Numeral.scale? digits power exponent)
      (match Numeral.exponentText exponent ++ rest with
        | 'e' :: rest => readExponent negative digits power rest
        | 'E' :: rest => readExponent negative digits power rest
        | rest => finishNumber negative digits power rest) := by
  cases exponent with
  | none =>
    have hfinish := finishNumber_text negative digits power rest
    cases rest with
    | nil => exact hfinish
    | cons c others =>
      obtain ⟨-, -, hlower, hupper⟩ := hr c rfl
      simpa [Numeral.scale?, Numeral.exponentText, hlower, hupper] using hfinish
  | some e =>
    have hread := readExponent_text hr negative digits power (he e rfl)
    rcases (he e rfl).mark with hm | hm
    · simpa [Numeral.scale?, Numeral.exponentText, Exponent.text, hm] using hread
    · simpa [Numeral.scale?, Numeral.exponentText, Exponent.text, hm] using hread

theorem readFraction_text (hw : Digits written) :
    NumberRead negative rest
      (Numeral.scale? (absorb maxSignificand digits written).1
        (power - (written.length - (absorb maxSignificand digits written).2.length : Nat)) exponent)
      (readFraction negative digits power
        (written ++ (Numeral.exponentText exponent ++ rest))) := by
  have hdigit : ∀ c ∈ (Numeral.exponentText exponent ++ rest).head?, c.isDigit = false :=
    fun c hc => (head_exponentText hr he c hc).1
  simp only [readFraction, takeWhile_digits hw hdigit, dropWhile_digits hw hdigit]
  rw [if_neg (by simp [hw.1])]
  exact readScale_text hr negative _ _ he

end

theorem toDouble_ofInteger (negative : Bool) (magnitude : Nat) :
    (ofInteger negative magnitude).toDouble = signed negative (.ofNat magnitude) := by
  cases negative with
  | false =>
    have hpos : ¬ (magnitude : Int) < 0 := by omega
    simp [ofInteger, signed, Number.toDouble, Double.ofInt, hpos]
  | true =>
    by_cases h : magnitude = 0 ∨ twoTo 63 < magnitude
    · simp [ofInteger, signed, Number.toDouble, h]
    · have hneg : -(magnitude : Int) < 0 := by omega
      simp only [ofInteger, signed, Bool.not_true, Bool.false_eq_true, if_false, if_true, if_neg h,
        Number.toDouble, Double.ofInt, if_pos hneg, Int.natAbs_neg, Int.natAbs_natCast]

namespace Numeral

variable {numeral : Numeral} {rest : List Char}

theorem readInteger_text (hf : numeral.fraction = none) (he : numeral.exponent = none)
    (negative : Bool) (rest : List Char) :
    NumberRead negative rest numeral.magnitude?
      (if (absorb maxSignificand 0 numeral.whole).2.isEmpty then
        .ok (ofInteger negative (absorb maxSignificand 0 numeral.whole).1, rest)
      else finishNumber negative (absorb maxSignificand 0 numeral.whole).1
        (absorb maxSignificand 0 numeral.whole).2.length rest) := by
  simp only [magnitude?, hf, he, Option.isNone_none, true_and, List.isEmpty_iff, scale?]
  split
  · exact .number (toDouble_ofInteger negative _)
  · exact finishNumber_text negative _ _ rest

theorem readNumber_magnitudeText (hl : numeral.Legal) (hr : Ends rest) (negative : Bool) :
    NumberRead negative rest numeral.magnitude?
      (readNumber negative (numeral.magnitudeText ++ rest)) := by
  have hafter : ∀ c ∈ (fractionText numeral.fraction ++
      (exponentText numeral.exponent ++ rest)).head?, c.isDigit = false := by
    cases hf : numeral.fraction with
    | none => exact fun c hc => (head_exponentText hr hl.exponent c hc).1
    | some written => exact fun c hc => Option.some.inj hc ▸ rfl
  simp only [magnitudeText, List.append_assoc, readNumber, takeWhile_digits hl.whole hafter,
    dropWhile_digits hl.whole hafter]
  split
  · rename_i hw
    exact absurd hw hl.whole.1
  · rename_i hw
    -- No digit stands behind a leading zero.
    have hzero := hl.zero (by rw [hw]; rfl)
    simp [hw] at hzero
  · cases hf : numeral.fraction with
    | none =>
      cases he : numeral.exponent with
      | none =>
        have hread := readInteger_text hf he negative rest
        cases rest with
        | nil => exact hread
        | cons c others =>
          obtain ⟨-, hpoint, hlower, hupper⟩ := hr c rfl
          simpa [fractionText, exponentText, hpoint, hlower, hupper] using hread
      | some e =>
        have hread := readExponent_text hr negative (absorb maxSignificand 0 numeral.whole).1
          (absorb maxSignificand 0 numeral.whole).2.length (hl.exponent e he)
        rcases (hl.exponent e he).mark with hm | hm
        · simpa [magnitude?, scale?, hf, he, fractionText, exponentText, Exponent.text, hm]
            using hread
        · simpa [magnitude?, scale?, hf, he, fractionText, exponentText, Exponent.text, hm]
            using hread
    | some written =>
      simp only [magnitude?, hf]
      exact readFraction_text hr negative _ _ hl.exponent (hl.fraction written hf)

end Numeral

end ElmCodec.Json
