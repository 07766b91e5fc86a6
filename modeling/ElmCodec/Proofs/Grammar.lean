import ElmCodec.Proofs.Numerals
import ElmCodec.Proofs.StringSpellings

/-!
# Texts of values

The JSON grammar as a relation of texts and values. It is about texts alone:
what each one means is said by what it is put together from, without regard to
how it is read. Which values a spelled number may stand for is left open.
-/

namespace ElmCodec.Json

def Blanks (text : List Char) : Prop := ∀ c ∈ text, c ∈ [' ', '\t', '\n', '\r']

instance (text : List Char) : Decidable (Blanks text) :=
  decidable_of_iff (text.all [' ', '\t', '\n', '\r'].contains = true) (by simp [Blanks])

section
variable {α : Type}

inductive Padded (spells : List Char → α → Prop) : List Char → α → Prop
  | intro : Blanks before → spells text value → Blanks after →
    Padded spells (before ++ (text ++ after)) value

inductive Separated (spells : List Char → α → Prop) : List Char → List α → Prop
  | last : spells text value → Separated spells text [value]
  | more : spells text value → Separated spells rest values →
    Separated spells (text ++ ',' :: rest) (value :: values)

inductive Body (spells : List Char → α → Prop) : List Char → List α → Prop
  | blank : Blanks text → Body spells text []
  | parts : Separated spells text values → Body spells text values

inductive MemberText (spells : List Char → α → Prop) : List Char → String × α → Prop
  | intro : Padded StringText name key → Padded spells text value →
    MemberText spells (name ++ ':' :: text) (key, value)

theorem Padded.bare {spells : List Char → α → Prop} (h : spells text value) :
    Padded spells text value := by
  have hblanks : Blanks [] := nofun
  simpa using Padded.intro hblanks h hblanks

variable {p q : List Char → α → Prop} (h : ∀ text value, p text value → q text value)
include h

theorem Padded.imp (hp : Padded p text value) : Padded q text value := by
  cases hp with
  | intro hb hp ha => exact .intro hb (h _ _ hp) ha

theorem Separated.imp (hp : Separated p text values) : Separated q text values := by
  induction hp with
  | last hp => exact .last (h _ _ hp)
  | more hp _ ih => exact .more (h _ _ hp) ih

theorem Body.imp (hp : Body p text values) : Body q text values := by
  cases hp with
  | blank hb => exact .blank hb
  | parts hp => exact .parts (hp.imp h)

theorem MemberText.imp (hp : MemberText p text m) : MemberText q text m := by
  cases hp with
  | intro hn hp => exact .intro hn (hp.imp h)

end

inductive ScalarText (numbers : Numeral → Number → Prop) : List Char → Json → Prop
  | null : ScalarText numbers "null".toList .null
  | true : ScalarText numbers "true".toList (.boolean true)
  | false : ScalarText numbers "false".toList (.boolean false)
  | number : numeral.Legal → numbers numeral value →
    ScalarText numbers numeral.text (.number value)
  | string : StringText text value → ScalarText numbers text (.string value)

/-- Texts of lists and objects whose parts have texts that `spells` relates to them. The
members of an object have distinct keys, and each key the value last written for it. -/
inductive CompositeText (spells : List Char → Json → Prop) : List Char → Json → Prop
  | list : Body (Padded spells) text items →
    CompositeText spells ('[' :: (text ++ [']'])) (.list items)
  | object : Body (MemberText spells) text written → (members.map (·.1)).Nodup →
    (∀ key, members.lookup key = written.reverse.lookup key) →
    CompositeText spells ('{' :: (text ++ ['}'])) (.object members)

theorem CompositeText.imp {p q : List Char → Json → Prop}
    (h : ∀ text value, p text value → q text value) (hp : CompositeText p text value) :
    CompositeText q text value := by
  cases hp with
  | list hb => exact .list (hb.imp fun _ _ => Padded.imp h)
  | object hb hd hl => exact .object (hb.imp fun _ _ => MemberText.imp h) hd hl

/-- The texts of values, with at most `depth` brackets open at once. -/
def Denotes (numbers : Numeral → Number → Prop) : (depth : Nat) → List Char → Json → Prop
  | 0 => ScalarText numbers
  | depth + 1 => fun text value =>
    ScalarText numbers text value ∨ CompositeText (Denotes numbers depth) text value

theorem Denotes.scalar {numbers : Numeral → Number → Prop} (h : ScalarText numbers text value)
    (depth : Nat) : Denotes numbers depth text value := by
  cases depth with
  | zero => exact h
  | succ depth => exact .inl h

/-- A document is a value with blanks around it. -/
def DocumentText (numbers : Numeral → Number → Prop) (text : String) (value : Json) : Prop :=
  Padded (Denotes numbers 127) text.toList value

end ElmCodec.Json
