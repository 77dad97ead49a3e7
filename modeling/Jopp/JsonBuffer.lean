import Jopp.Transfer
import Jopp.Serializer.Unfinished
import Jopp.Parser.Function

/-!
# Jopp.JsonBuffer

The class `json_buffer` (`lib/serializer.hpp`).

* `jsonBuffer`: the constructor. Which function named `to_string` it calls is decided by the type
  it is given: for a container it is the overload for containers, for an object or an array the
  template.
* `Container.output`: the text as far as buffers of one size receive it. `completes_output`: which
  trees come back from it.
* `jsonBuffer_parse`: what `jopp::parse` makes of a `json_buffer`.
-/

namespace Jopp

variable {cc : CharConv}

/-! ## The class -/

structure JsonBuffer where
  content : Str

/-- A `json_buffer_view` is this view. -/
def JsonBuffer.getView (buffer : JsonBuffer) : Str := buffer.content

/-- What a `json_buffer` is made from. -/
inductive Root where
  | container (root : Container)
  | object (root : List (Str × Value))
  | array (root : List Value)

def Root.toString (cc : CharConv) (calls : Nat) : Root → ToStringOutcome
  | .container root => containerToString cc root false calls
  | .object root => templateToString cc (.object root) calls
  | .array root => templateToString cc (.array root) calls

inductive JsonBufferOutcome where
  | made (buffer : JsonBuffer)
  | threw (what : String)
  | outOfFuel

def jsonBuffer (cc : CharConv) (root : Root) (calls : Nat) : JsonBufferOutcome :=
  match root.toString cc calls with
  | .returned ret => .made ⟨ret⟩
  | .threw what => .threw what
  | .outOfFuel => .outOfFuel

def Container.toRoot : Container → Root
  | .object root => .object root
  | .array root => .array root

theorem toString_toRoot (t : Container) (calls : Nat) :
    t.toRoot.toString cc calls = templateToString cc t calls := by
  cases t <;> rfl

/-- What buffers of one size receive of a text whose last token is two bytes long. -/
def Container.output (cc : CharConv) (t : Container) (size : Nat) : Str :=
  (t.text cc false).take (size * (((t.text cc false).length - 2) / size + 1))

/-- All of the text, the last newline perhaps excepted. -/
theorem output_rest (cc : CharConv) (t : Container) {size : Nat} (hsize : 0 < size) :
    ∃ rest, t.output cc size ++ rest = t.text cc false ∧ rest.length ≤ 1 := by
  refine ⟨_, List.take_append_drop .., ?_⟩
  have hdiv := Nat.lt_mul_div_succ ((t.text cc false).length - 2) hsize
  rw [List.length_drop]
  omega

theorem completes_output (hcc : cc.RoundTrips) {t : Container} (ht : t.Ordered)
    (hesc : (toValue t).AllStrings Escapable) (hnum : (toValue t).NumbersOnly) {size : Nat}
    (hsize : 0 < size) (maxLevels : Option Nat) (c : Container) :
    Completes cc maxLevels (t.output cc size) c ↔
      (toValue t).KeysNonEmpty ∧ Allows maxLevels t.depth ∧ c = t := by
  obtain ⟨rest, htext, hrest⟩ := output_rest cc t hsize
  exact completes_text hcc ht hesc hnum htext hrest maxLevels c

/-- Where all can be escaped, the last token is what decides. -/
theorem init_unstuck {t : Container} (hesc : (toValue t).AllStrings Escapable) :
    ¬ (Serializer.init t false).Stuck cc ∧
      (Serializer.init t false).decisive cc = (t.text cc false).length - 2 := by
  refine ⟨fun hs => (init_stuck cc t false).mp hs hesc, ?_⟩
  rw [init_decisive cc t false hesc]
  exact (Nat.add_sub_cancel ..).symm

theorem templateToString_output {t : Container} (hesc : (toValue t).AllStrings Escapable) {n : Nat}
    (hn : (t.text cc false).length / 65536 + 1 ≤ n) :
    templateToString cc t n = .returned (t.output cc 65536) := by
  obtain ⟨hstuck, hdecisive⟩ : ¬ (Serializer.init t false).Stuck cc ∧ _ := init_unstuck hesc
  rw [templateToString, templateToStringLoop_text cc n [] _ hstuck, List.nil_append, init_text,
    hdecisive]
  · rfl
  · rw [hdecisive]
    omega

theorem templateToString_threw {t : Container} (hesc : ¬ (toValue t).AllStrings Escapable) {n : Nat}
    (hn : (Serializer.init t false).decisive cc / 65536 + 1 ≤ n) :
    templateToString cc t n = .threw "jopp bad data" :=
  templateToStringLoop_throws cc n [] _ ((init_stuck cc t false).mpr hesc) hn

theorem containerToStringLoop_unfinished (hcc : cc.WritesPlain) {calls : Nat} {ret w : Str}
    {s : Serializer} (hs : s.Unfinished ret)
    (h : containerToStringLoop cc calls ret s = .returned w) : ¬ (countOf w).Ended := by
  induction calls generalizing ret s with
  | zero => cases h
  | succ calls ih =>
    obtain ⟨written, ec, s', hcall⟩ := serialize_returned cc s 4096
    simp only [containerToStringLoop, hcall] at h
    by_cases hec : ec = .completed
    · rw [if_pos hec] at h
      cases h
      exact hs.unended
    · rw [if_neg hec] at h
      exact ih (unfinished_serialize hcc hs hcall hec) h

/-- **What comes back from a buffer.** A tree put into a buffer as an object or an array is returned
by `jopp::parse` if all its strings can be escaped, none of its keys is empty and it is no more
than 1024 levels deep, and otherwise not. A buffer can be made of every container as well, but
`jopp::parse` returns nothing from that. -/
theorem jsonBuffer_parse (cc : CharConv) (hcc : cc.RoundTrips) (hplain : cc.Plain)
    (hwrites : cc.WritesPlain) (t : Container) (ht : t.Ordered) (hnum : (toValue t).NumbersOnly) :
    ∃ calls, ∀ n, calls ≤ n → ∀ maxLevels,
      ((∃ buffer, jsonBuffer cc t.toRoot n = .made buffer ∧
          joppParse cc buffer.getView maxLevels = .returned t) ↔
        (toValue t).AllStrings Escapable ∧ (toValue t).KeysNonEmpty ∧ t.depth ≤ 1024) ∧
      ∃ buffer, jsonBuffer cc (.container t) n = .made buffer ∧
        ∀ c, joppParse cc buffer.getView maxLevels ≠ .returned c := by
  obtain ⟨w, calls, hrun⟩ := containerToStringLoop_returns cc [] (Serializer.init t false)
  refine ⟨max calls (max ((t.text cc false).length / 65536 + 1)
    ((Serializer.init t false).decisive cc / 65536 + 1)), fun n hn maxLevels => ⟨?_, ⟨w⟩, ?_, ?_⟩⟩
  · by_cases hesc : (toValue t).AllStrings Escapable
    · have hmade : jsonBuffer cc t.toRoot n = .made ⟨t.output cc 65536⟩ := by
        rw [jsonBuffer, toString_toRoot, templateToString_output hesc (by omega)]
      have hback := completes_output hcc ht hesc hnum (by decide : 0 < 65536) defaultMaxLevels t
      have hlimit : Allows defaultMaxLevels t.depth ↔ t.depth ≤ 1024 :=
        ⟨fun h => h 1024 rfl, fun h k hk => by cases hk; exact h⟩
      rw [hlimit, ← joppParse_returned, eq_self_iff_true, and_true] at hback
      constructor
      · rintro ⟨buffer, hbuffer, hparse⟩
        rw [hmade] at hbuffer
        cases hbuffer
        exact ⟨hesc, hback.mp hparse⟩
      · rintro ⟨-, hkeys⟩
        exact ⟨_, hmade, hback.mpr hkeys⟩
    · refine iff_of_false ?_ fun h => hesc h.1
      rintro ⟨buffer, hbuffer, -⟩
      rw [jsonBuffer, toString_toRoot, templateToString_threw hesc (by omega)] at hbuffer
      cases hbuffer
  · have hcontainer : containerToString cc t false n = .returned w := hrun n (by omega)
    simp only [jsonBuffer, Root.toString, hcontainer]
  · intro c hc
    have hunended : ¬ (countOf w).Ended :=
      containerToStringLoop_unfinished hwrites (unfinished_init t false) (hrun n (by omega))
    exact not_completes_of_open hplain hunended _ c (joppParse_returned.mp hc)

/-- `{"a":{"b":[]}}` comes back. -/
theorem jsonBuffer_parse_nested :
    ∃ calls, ∀ n, calls ≤ n → ∃ buffer,
      jsonBuffer .binary (.object [([0x61], .object [([0x62], .array [])])]) n = .made buffer ∧
      joppParse .binary buffer.getView none =
        .returned (.object [([0x61], .object [([0x62], .array [])])]) := by
  obtain ⟨calls, hcalls⟩ := jsonBuffer_parse .binary binary_roundTrips binary_plain
    binary_writesPlain (.object [([0x61], .object [([0x62], .array [])])]) (by decide) (by decide)
  exact ⟨calls, fun n hn => (hcalls n hn none).1.mpr ⟨by decide, by decide, by decide⟩⟩

end Jopp
