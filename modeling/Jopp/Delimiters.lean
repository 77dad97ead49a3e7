import Mathlib.Data.List.Basic
import Mathlib.Tactic.Common

/-!
# Jopp.Delimiters

Bytes, delimiters and the escaping of strings (`lib/delimiters.hpp`). A `std::string` is the list
of its bytes.

`escape` and `unescape` are written as in the source, one with a table from characters to escape
characters, the other with the inverse table. `Escapable` is the exact condition under which
`escape` succeeds.

`Place` is what the quotes, backslashes and colons of a text say about the place behind it.
-/

namespace Jopp

abbrev Byte := UInt8

abbrev Str := List Byte

namespace Delimiters

def beginArray : Byte := 0x5b
def beginObject : Byte := 0x7b
def endArray : Byte := 0x5d
def endObject : Byte := 0x7d
def nameSeparator : Byte := 0x3a
def valueSeparator : Byte := 0x2c
def stringBeginEnd : Byte := 0x22

end Delimiters

def space : Byte := 0x20
def horizontalTab : Byte := 0x09
def newline : Byte := 0x0a
def carriageReturn : Byte := 0x0d

def isWhitespace (ch : Byte) : Bool :=
  ch == space || ch == horizontalTab || ch == newline || ch == carriageReturn

/-- `char` may be signed: a byte from `0x80` on then compares below `'\0'`, otherwise above
`'\x1f'`, so on neither reading is it in the range. -/
def charShouldBeEscaped (ch : Byte) : Bool :=
  (0x00 ≤ ch && ch ≤ 0x1f) || ch == 0x22 || ch == 0x5c

def beginEscSeq : Byte := 0x5c

namespace EscChars

def quotationMark : Byte := 0x22
def revSollidus : Byte := 0x5c
def linefeed : Byte := 0x6e
def tab : Byte := 0x74

end EscChars

def unescape (escChar : Byte) : Option Byte :=
  if escChar = EscChars.quotationMark then some 0x22
  else if escChar = EscChars.revSollidus then some 0x5c
  else if escChar = EscChars.linefeed then some newline
  else if escChar = EscChars.tab then some horizontalTab
  else none

def getEscapeChar (ch : Byte) : Option Byte :=
  if ch = 0x22 then some EscChars.quotationMark
  else if ch = 0x5c then some EscChars.revSollidus
  else if ch = newline then some EscChars.linefeed
  else if ch = horizontalTab then some EscChars.tab
  else none

/-- One pass of the loop of `escape`: what is appended to `ret` for one character. -/
def escapeChar (ch : Byte) : Option Str :=
  if charShouldBeEscaped ch then
    match getEscapeChar ch with
    | none => none
    | some escChar => some [beginEscSeq, escChar]
  else some [ch]

def escape : Str → Option Str
  | [] => some []
  | ch :: val =>
    match escapeChar ch with
    | none => none
    | some out =>
      match escape val with
      | none => none
      | some ret => some (out ++ ret)

def wrapString (val : Str) : Option Str :=
  match escape val with
  | none => none
  | some escapedString =>
    some ([Delimiters.stringBeginEnd] ++ escapedString ++ [Delimiters.stringBeginEnd])

/-! ## What escaping accepts -/

/-- Control bytes for which there is no escape sequence. -/
def isUnsupportedControl (ch : Byte) : Bool :=
  ch ≤ 0x1f && ch != newline && ch != horizontalTab

/-- `escape` accepts the string. -/
def Escapable (s : Str) : Prop := (escape s).isSome = true

instance (s : Str) : Decidable (Escapable s) := inferInstanceAs (Decidable (_ = true))

theorem escapeChar_isSome (ch : Byte) :
    (escapeChar ch).isSome = !isUnsupportedControl ch := by
  simp only [escapeChar, charShouldBeEscaped, getEscapeChar, isUnsupportedControl]
  by_cases h₁ : ch = 0x22
  · subst h₁; rfl
  by_cases h₂ : ch = 0x5c
  · subst h₂; rfl
  by_cases h₃ : ch = newline
  · subst h₃; rfl
  by_cases h₄ : ch = horizontalTab
  · subst h₄; rfl
  by_cases h₅ : ch ≤ 0x1f <;> simp [h₁, h₂, h₃, h₄, h₅]

@[simp] theorem escapable_nil : Escapable [] := rfl

theorem escapable_cons {ch : Byte} {s : Str} :
    Escapable (ch :: s) ↔ isUnsupportedControl ch = false ∧ Escapable s := by
  have hch := escapeChar_isSome ch
  simp only [Escapable, escape]
  cases h : escapeChar ch with
  | none => simp_all
  | some out => cases h' : escape s <;> simp_all

theorem escapable_iff {s : Str} :
    Escapable s ↔ ∀ ch ∈ s, isUnsupportedControl ch = false := by
  induction s with
  | nil => simp
  | cons ch s ih => simp [escapable_cons, ih]

theorem escapable_append {s t : Str} : Escapable (s ++ t) ↔ Escapable s ∧ Escapable t := by
  simp only [escapable_iff, List.mem_append]
  exact ⟨fun h => ⟨fun ch hc => h ch (.inl hc), fun ch hc => h ch (.inr hc)⟩,
    fun h ch hc => hc.elim (h.1 ch) (h.2 ch)⟩

theorem escapeChar_length {ch : Byte} {out : Str} (h : escapeChar ch = some out) :
    out.length ≤ 2 := by
  unfold escapeChar at h
  split at h
  · split at h
    · cases h
    · cases h
      exact Nat.le_refl 2
  · cases h
    exact Nat.le_succ 1

theorem escape_length {val ret : Str} (h : escape val = some ret) :
    ret.length ≤ 2 * val.length := by
  induction val generalizing ret with
  | nil =>
    cases h
    exact Nat.le_refl 0
  | cons ch val ih =>
    simp only [escape] at h
    cases hout : escapeChar ch with
    | none =>
      rw [hout] at h
      cases h
    | some out =>
      cases hval : escape val with
      | none =>
        rw [hout, hval] at h
        cases h
      | some ret' =>
        rw [hout, hval] at h
        cases h
        have hhead := escapeChar_length hout
        have htail := ih hval
        rw [List.length_append, List.length_cons]
        omega

theorem wrapString_length {val ret : Str} (h : wrapString val = some ret) :
    ret.length ≤ 2 * val.length + 2 := by
  unfold wrapString at h
  split at h
  · cases h
  · rename_i escaped hescaped
    cases h
    have hlen := escape_length hescaped
    simp only [List.length_append, List.length_singleton]
    omega

theorem supported_of_raw {ch : Byte} (h : charShouldBeEscaped ch = false) :
    isUnsupportedControl ch = false := by
  simp only [charShouldBeEscaped, isUnsupportedControl, Bool.or_eq_false_iff,
    Bool.and_eq_false_iff] at h ⊢
  rcases h.1.1 with h | h
  · simp at h
  · exact .inl (.inl h)

theorem supported_of_unescape {escChar ch : Byte} (h : unescape escChar = some ch) :
    isUnsupportedControl ch = false := by
  simp only [unescape] at h
  split at h
  · cases h; rfl
  split at h
  · cases h; rfl
  split at h
  · cases h; rfl
  split at h
  · cases h; rfl
  · cases h

/-! ## Places in a text -/

/-- The place behind a text, as far as the quotes, backslashes and colons in it tell. -/
inductive Place where
  | outside
  /-- Behind a colon, whitespace apart. -/
  | afterColon
  | inString
  | afterBackslash
deriving DecidableEq

def Place.next : Place → Byte → Place
  | .inString, ch =>
    if ch = Delimiters.stringBeginEnd then .outside
    else if ch = beginEscSeq then .afterBackslash
    else .inString
  | .afterBackslash, _ => .inString
  | place, ch =>
    if ch = Delimiters.stringBeginEnd then .inString
    else if ch = Delimiters.nameSeparator then .afterColon
    else if isWhitespace ch then place
    else .outside

def placeAfter (w : Str) : Place := w.foldl Place.next .outside

def Place.quoted : Place → Bool
  | .inString | .afterBackslash => true
  | .outside | .afterColon => false

section

variable {place : Place} {ch : Byte}

theorem whitespace_cases (h : isWhitespace ch = true) :
    ch = space ∨ ch = horizontalTab ∨ ch = newline ∨ ch = carriageReturn := by
  simpa [isWhitespace, or_assoc] using h

theorem next_blank (h : isWhitespace ch = true) (hplace : place = .outside ∨ place = .afterColon) :
    place.next ch = place := by
  rcases hplace with rfl | rfl <;>
    rcases whitespace_cases h with rfl | rfl | rfl | rfl <;> rfl

theorem quoted_eq_false :
    place.quoted = false ↔ place = .outside ∨ place = .afterColon := by
  cases place <;> simp [Place.quoted]

theorem next_quiet (hq : place.quoted = false)
    (hch : ch ≠ Delimiters.stringBeginEnd) : (place.next ch).quoted = false := by
  rcases quoted_eq_false.mp hq with rfl | rfl <;> simp only [Place.next, if_neg hch] <;>
    split_ifs <;> rfl

theorem next_quote (hq : place.quoted = false) :
    place.next Delimiters.stringBeginEnd = .inString := by
  rcases quoted_eq_false.mp hq with rfl | rfl <;> rfl

theorem raw_ne (h : charShouldBeEscaped ch = false) :
    ch ≠ Delimiters.stringBeginEnd ∧ ch ≠ beginEscSeq := by
  constructor <;>
  · rintro rfl
    cases h

theorem next_raw (h : charShouldBeEscaped ch = false) : Place.inString.next ch = .inString := by
  obtain ⟨hquote, hback⟩ := raw_ne h
  simp only [Place.next, if_neg hquote, if_neg hback]

end

end Jopp
