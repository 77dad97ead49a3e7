import Jopp.Delimiters
import Mathlib.Data.Nat.Digits.Lemmas

/-!
# Jopp.Numbers

Numbers and their texts (`lib/types.hpp`).

* A `number` is a `double`, kept as its bit pattern.
* `std::to_chars` and `std::from_chars` for `double` are a parameter (`CharConv`); `toNumber` is
  the source's wrapper around the second. `CharConv.Plain`, `CharConv.Solid`,
  `CharConv.WritesPlain`, `CharConv.AtMost` and `CharConv.RoundTrips` name what is documented about
  them and used in this development.
* `CharConv.binary` is a conversion for which all of them hold: it writes 0 and 1 as the library
  does, and any other number as the binary digits of its bit pattern.
-/

namespace Jopp

/-- A `double`, by its IEEE 754 bit pattern. -/
structure Number where
  bits : BitVec 64
deriving DecidableEq

def Number.isNaN (x : Number) : Bool :=
  x.bits.extractLsb' 52 11 == 0x7ff#11 && x.bits.extractLsb' 0 52 != 0#52

inductive Errc where
  | ok
  | invalidArgument
  | resultOutOfRange
deriving DecidableEq

structure FromCharsResult where
  ptr : Nat
  ec : Errc

/-- `std::to_chars` (the characters written) and `std::from_chars` (the result and the value
left in the number passed to it). -/
structure CharConv where
  toChars : Number → Str
  fromChars : Str → Number → FromCharsResult × Number

def falseLiteral : Str := [0x66, 0x61, 0x6c, 0x73, 0x65]
def nullLiteral : Str := [0x6e, 0x75, 0x6c, 0x6c]
def trueLiteral : Str := [0x74, 0x72, 0x75, 0x65]

def nullToString : Str := nullLiteral

def booleanToString (x : Bool) : Str := if x = true then trueLiteral else falseLiteral

/-- The shortest text of a `double` fits the 32 characters of the buffer. -/
def numberToString (cc : CharConv) (x : Number) : Str := cc.toChars x

def toNumber (cc : CharConv) (val : Str) : Option Number :=
  let ret : Number := ⟨0⟩
  let res := cc.fromChars val ret
  if res.1.ptr ≠ val.length ∨ res.1.ec = .resultOutOfRange ∨ res.1.ec = .invalidArgument then none
  else some res.2

/-- Not whitespace, not a delimiter, not a quote. -/
def isPlain (ch : Byte) : Bool :=
  !(isWhitespace ch || ch == Delimiters.beginArray || ch == Delimiters.beginObject
    || ch == Delimiters.endArray || ch == Delimiters.endObject || ch == Delimiters.nameSeparator
    || ch == Delimiters.valueSeparator || ch == Delimiters.stringBeginEnd)

/-- Text that `std::from_chars` accepts completely is a plain word. -/
def CharConv.Plain (cc : CharConv) : Prop :=
  ∀ w x, toNumber cc w = some x → w ≠ [] ∧ ∀ ch ∈ w, isPlain ch = true

def CharConv.Solid (cc : CharConv) : Prop :=
  ∀ x, ∀ ch ∈ numberToString cc x, isWhitespace ch = false ∧ ch ≠ Delimiters.stringBeginEnd

/-- Number text is made of plain bytes, also where the number is none. -/
def CharConv.WritesPlain (cc : CharConv) : Prop :=
  ∀ x, ∀ ch ∈ numberToString cc x, isPlain ch = true

def CharConv.AtMost (cc : CharConv) (k : Nat) : Prop := ∀ x, (numberToString cc x).length ≤ k

/-- `std::from_chars` recovers what `std::to_chars` wrote, which is a plain word and none of the
three literals. -/
structure CharConv.RoundTrips (cc : CharConv) : Prop where
  toNumber_toString : ∀ x, x.isNaN = false → toNumber cc (numberToString cc x) = some x
  ne_nil : ∀ x, x.isNaN = false → numberToString cc x ≠ []
  plain : ∀ x, x.isNaN = false → ∀ ch ∈ numberToString cc x, isPlain ch = true
  ne_literal : ∀ x, x.isNaN = false →
    numberToString cc x ≠ falseLiteral ∧ numberToString cc x ≠ trueLiteral ∧
      numberToString cc x ≠ nullLiteral

theorem plain_ne {ch : Byte} (h : isPlain ch = true) :
    isWhitespace ch = false ∧ ch ≠ Delimiters.beginArray ∧ ch ≠ Delimiters.beginObject ∧
      ch ≠ Delimiters.endArray ∧ ch ≠ Delimiters.endObject ∧ ch ≠ Delimiters.valueSeparator ∧
      ch ≠ Delimiters.stringBeginEnd := by
  simp only [isPlain, Bool.not_eq_true', Bool.or_eq_false_iff, beq_eq_false_iff_ne] at h
  obtain ⟨⟨⟨⟨⟨⟨⟨hw, ha⟩, ho⟩, hea⟩, heo⟩, -⟩, hv⟩, hq⟩ := h
  exact ⟨hw, ha, ho, hea, heo, hv, hq⟩

/-! ## A conversion that satisfies the assumptions -/

def Number.one : Number := ⟨0x3ff0000000000000#64⟩

def binaryDigit (d : Nat) : Byte := if d = 0 then 0x30 else 0x31

def digitValue (ch : Byte) : Nat := if ch = 0x30 then 0 else 1

def isBinaryDigit (ch : Byte) : Bool := ch == 0x30 || ch == 0x31

def binaryToChars (x : Number) : Str :=
  if x = ⟨0⟩ then [0x30]
  else if x = .one then [0x31]
  else 0x62 :: (Nat.digits 2 x.bits.toNat).map binaryDigit

def binaryFromChars : Str → Option Number
  | [] => none
  | ch :: ds =>
    if ch :: ds = [0x30] then some ⟨0⟩
    else if ch :: ds = [0x31] then some .one
    else if ch = 0x62 ∧ ds.all isBinaryDigit = true then
      some ⟨BitVec.ofNat 64 (Nat.ofDigits 2 (ds.map digitValue))⟩
    else none

def CharConv.binary : CharConv where
  toChars := binaryToChars
  fromChars := fun w ret =>
    match binaryFromChars w with
    | some x => (⟨w.length, .ok⟩, x)
    | none => (⟨0, .invalidArgument⟩, ret)

theorem toNumber_binary (w : Str) : toNumber .binary w = binaryFromChars w := by
  cases h : binaryFromChars w <;> simp [toNumber, CharConv.binary, h]

theorem isPlain_of_isBinaryDigit {ch : Byte} (h : isBinaryDigit ch = true) :
    isPlain ch = true := by
  simp only [isBinaryDigit, Bool.or_eq_true, beq_iff_eq] at h
  rcases h with rfl | rfl <;> rfl

theorem binaryFromChars_toChars (x : Number) : binaryFromChars (binaryToChars x) = some x := by
  simp only [binaryToChars]
  split
  · rename_i h
    rw [h]; rfl
  split
  · rename_i h
    rw [h]; rfl
  have hdigits : ((Nat.digits 2 x.bits.toNat).map binaryDigit).map digitValue =
      Nat.digits 2 x.bits.toNat := by
    rw [List.map_map]
    conv_rhs => rw [← List.map_id (Nat.digits 2 x.bits.toNat)]
    refine List.map_congr_left fun d hd => ?_
    have hlt : d < 2 := Nat.digits_lt_base (by omega) hd
    interval_cases d <;> rfl
  have hall : ((Nat.digits 2 x.bits.toNat).map binaryDigit).all isBinaryDigit = true := by
    simp only [List.all_map, List.all_eq_true]
    intro d _
    simp only [Function.comp, binaryDigit]
    split <;> rfl
  simp only [binaryFromChars, hdigits, hall, Nat.ofDigits_digits, BitVec.ofNat_toNat]
  simp

theorem binary_plain : CharConv.binary.Plain := by
  intro w x h
  rw [toNumber_binary] at h
  cases w with
  | nil => cases h
  | cons ch ds =>
    refine ⟨by simp, ?_⟩
    simp only [binaryFromChars] at h
    split at h
    · rename_i hw
      rw [hw]
      exact List.all_eq_true.mp rfl
    split at h
    · rename_i hw
      rw [hw]
      exact List.all_eq_true.mp rfl
    split at h
    · rename_i hw
      obtain ⟨rfl, hds⟩ := hw
      intro c hc
      rcases List.mem_cons.mp hc with rfl | hc
      · rfl
      · exact isPlain_of_isBinaryDigit (List.all_eq_true.mp hds c hc)
    · cases h

theorem binary_solid : CharConv.binary.Solid := by
  intro x ch hch
  have hread : toNumber .binary (numberToString .binary x) = some x := by
    rw [toNumber_binary]
    exact binaryFromChars_toChars x
  obtain ⟨hw, -, -, -, -, -, hq⟩ := plain_ne ((binary_plain _ x hread).2 ch hch)
  exact ⟨hw, hq⟩

theorem binary_writesPlain : CharConv.binary.WritesPlain := by
  intro x ch hch
  have hread : toNumber .binary (numberToString .binary x) = some x := by
    rw [toNumber_binary]
    exact binaryFromChars_toChars x
  exact (binary_plain _ x hread).2 ch hch

theorem binary_atMost : CharConv.binary.AtMost 65 := by
  intro x
  show (binaryToChars x).length ≤ 65
  unfold binaryToChars
  split
  · decide
  split
  · decide
  have hdigits : (Nat.digits 2 x.bits.toNat).length ≤ 64 :=
    (Nat.digits_length_le_iff (by decide) _).mpr x.bits.isLt
  rw [List.length_cons, List.length_map]
  omega

theorem binary_roundTrips : CharConv.binary.RoundTrips := by
  have hback : ∀ x, toNumber .binary (numberToString .binary x) = some x := fun x => by
    rw [toNumber_binary]; exact binaryFromChars_toChars x
  refine ⟨fun x _ => hback x, fun x _ => (binary_plain _ _ (hback x)).1,
    fun x _ => (binary_plain _ _ (hback x)).2, fun x _ => ?_⟩
  have hne : ∀ w, toNumber .binary w = none → numberToString .binary x ≠ w := by
    intro w hw he
    rw [← he, hback x] at hw
    cases hw
  exact ⟨hne _ (by rw [toNumber_binary]; rfl), hne _ (by rw [toNumber_binary]; rfl),
    hne _ (by rw [toNumber_binary]; rfl)⟩

end Jopp
