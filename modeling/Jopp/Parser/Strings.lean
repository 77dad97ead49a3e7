import Jopp.Parser.Chunks
import Jopp.Serializer.Verdict

/-!
# Jopp.Parser.Strings

Every string the parser builds can be escaped again: what enters `m_buffer` in a quoted state is
either a character that needs no escape sequence or the value of one (`clean_branch`). The buffer
of a literal may hold anything, but never becomes a string.

Hence a serializer over a parsed root never returns `illegalCharInString` (`parsed_escapable`).
-/

namespace Jopp

open Resumable

def ParserContext.Clean (c : ParserContext) : Prop :=
  Escapable c.key ∧ (toValue c.value).AllStrings Escapable

/-- Everything the parser holds can be escaped, except for the text of a literal. -/
def Parser.Clean (p : Parser) : Prop :=
  (p.currentState = .literal ∨ Escapable p.buffer) ∧ ∀ c ∈ p.contexts, c.Clean

theorem storeValue_clean {parent : ParserContext} {val : Value} (hp : parent.Clean)
    (hv : val.AllStrings Escapable) : (storeValue parent val).1.Clean := by
  refine ⟨by rw [storeValue_key]; exact escapable_nil, ?_⟩
  cases h : parent.value with
  | object ms =>
    have hold := hp.2
    rw [h] at hold
    rw [(storeValue_object val h).1]
    refine allStrings_object.mpr fun kv hkv => ?_
    rcases SortedMap.mem_insert hkv with rfl | hkv
    · exact ⟨hp.1, hv⟩
    · exact allStrings_object.mp hold kv hkv
  | array vs =>
    have hold := hp.2
    rw [h] at hold
    rw [(storeValue_array val h).1]
    refine allStrings_array.mpr fun v hmem => ?_
    rcases List.mem_append.mp hmem with hmem | hmem
    · exact allStrings_array.mp hold v hmem
    · rw [List.mem_singleton.mp hmem]
      exact hv

theorem makeValue_strings {cc : CharConv} {w : Str} {val : Value}
    (h : makeValue cc w = some val) (Q : Str → Prop) : val.AllStrings Q := by
  rcases makeValue_cases h with ⟨-, rfl⟩ | ⟨-, rfl⟩ | ⟨-, rfl⟩ | ⟨x, -, rfl⟩ <;>
    simp [Value.AllStrings, Value.ownStrings]

theorem allStrings_string {Q : Str → Prop} {s : Str} : (Value.string s).AllStrings Q ↔ Q s := by
  simp [Value.AllStrings, Value.ownStrings]

theorem clean_put {top : ParserContext} {rest : List ParserContext} {val : Value}
    (htop : top.Clean) (hrest : ∀ c ∈ rest, c.Clean) (hv : val.AllStrings Escapable) :
    ∀ c ∈ (storeValue top val).1 :: rest, c.Clean := by
  intro c hc
  rcases List.mem_cons.mp hc with rfl | hc
  · exact storeValue_clean htop hv
  · exact hrest c hc

theorem escapable_snoc {s : Str} {ch : Byte} (hs : Escapable s)
    (hch : isUnsupportedControl ch = false) : Escapable (s ++ [ch]) :=
  escapable_append.mpr ⟨hs, escapable_cons.mpr ⟨hch, escapable_nil⟩⟩

theorem clean_branch {cc : CharConv} {p : Parser} {ch : Byte} {flow : Flow} (h : p.Clean)
    (hb : Branch cc p ch flow) :
    flow.Sat Parser.Clean
      (fun q e => e = some .completed → (toValue q.root).AllStrings Escapable) p := by
  obtain ⟨hbuf, hctx⟩ := h
  -- outside a literal the buffer is clean
  have hquoted : ∀ {s : ParserState}, p.currentState = s → s ≠ .literal → Escapable p.buffer := by
    intro s hs hne
    rcases hbuf with hlit | hbuf
    · exact absurd (hs.symm.trans hlit) hne
    · exact hbuf
  cases hb with
  | blank hs hch => exact ⟨hbuf, hctx⟩
  | openArray hs hch hd =>
    refine ⟨.inr (hquoted hs (by decide)), fun c hc => ?_⟩
    rcases List.mem_cons.mp hc with rfl | hc
    · exact ⟨escapable_nil, allStrings_array.mpr (by simp)⟩
    · exact hctx c hc
  | openObject hs hch hd =>
    refine ⟨.inr (hquoted hs (by decide)), fun c hc => ?_⟩
    rcases List.mem_cons.mp hc with rfl | hc
    · exact ⟨escapable_nil, allStrings_object.mpr (by simp)⟩
    · exact hctx c hc
  | endInValue hs hch | openString hs hch hne => exact ⟨.inr (hquoted hs (by decide)), hctx⟩
  | openLiteral hs hch ha ho he hq hne => exact ⟨.inl rfl, hctx⟩
  | literalChar hs hch => exact ⟨.inl hs, hctx⟩
  | literalBlank hs hch hc hv hr | literalBack hs hch hw hc hv hr =>
    rw [hc, List.forall_mem_cons] at hctx
    exact ⟨.inr escapable_nil, clean_put hctx.1 hctx.2 (makeValue_strings hv _)⟩
  | rawChar hs hch =>
    have hne : p.currentState ≠ .literal := by
      intro hlit
      rw [hlit] at hs
      cases hs
    exact ⟨.inr (escapable_snoc (hquoted rfl hne) (supported_of_raw hch)), hctx⟩
  | beginEsc hs hch =>
    have hne : p.currentState ≠ .literal := by
      intro hlit
      rw [hlit] at hs
      cases hs
    exact ⟨.inr (hquoted rfl hne), hctx⟩
  | escChar hs hch =>
    have hne : p.currentState ≠ .literal := by
      intro hlit
      rw [hlit] at hs
      cases hs
    exact ⟨.inr (escapable_snoc (hquoted rfl hne) (supported_of_unescape hch)), hctx⟩
  | closeString hs hch hc hr =>
    rw [hc, List.forall_mem_cons] at hctx
    exact ⟨.inr escapable_nil, clean_put hctx.1 hctx.2
      (allStrings_string.mpr (hquoted hs (by decide)))⟩
  | openKey hs hch | endInBeforeKey hs hch | colon hs hch | commaObject hs hch
  | commaArray hs hch => exact ⟨.inr (hquoted hs (by decide)), hctx⟩
  | closeKey hs hch hc =>
    rw [hc, List.forall_mem_cons] at hctx
    refine ⟨.inr escapable_nil, fun c hc => ?_⟩
    rcases List.mem_cons.mp hc with rfl | hc
    · exact ⟨hquoted hs (by decide), hctx.1.2⟩
    · exact hctx.2 c hc
  | closeContainer hs hc hr =>
    rw [hc, List.forall_mem_cons, List.forall_mem_cons] at hctx
    have hne : p.currentState ≠ .literal := by
      intro hlit
      rw [hlit] at hs
      cases hs
    exact ⟨.inr (hquoted rfl hne), clean_put hctx.2.1 hctx.2.2 hctx.1.2⟩
  | closeRoot hs hc =>
    rw [hc, List.forall_mem_cons] at hctx
    exact fun _ => hctx.1.2
  | tooDeep | leafAtTop | literalInvalid | literalRefused | rawIllegal | escIllegal | stringRefused
  | illegal | closeRefused => exact fun h => nomatch h
  | literalEmpty | stringEmpty | keyEmpty | closeEmpty => exact fun h => nomatch h

theorem clean_scan (cc : CharConv) {p : Parser} (h : p.Clean) (w : Str) :
    (scan (step cc) p w).Sat Parser.Clean
      (fun q e => e = some .completed → (toValue q.root).AllStrings Escapable) :=
  scan_branch_inv (I := Parser.Clean) (fun p ch h => by simpa [Parser.Clean] using h)
    (fun _ _ _ => clean_branch) h w

/-- **What was parsed can be serialized.** -/
theorem parsed_escapable (cc : CharConv) (root : Container) (maxLevels : Option Nat)
    (chunks : List Str) (res : ParseResult) (q : Parser)
    (h : parseChunks cc (Parser.init root maxLevels) chunks = .returned res q)
    (hec : res.ec = .completed) :
    (toValue q.root).AllStrings Escapable ∧
      ∀ pretty caps w s, serializeAll cc (Serializer.init q.root pretty) caps ≠
        .returned w .illegalCharInString s := by
  have hclean : (Parser.init root maxLevels).Clean :=
    ⟨.inr escapable_nil, fun c hc => absurd hc List.not_mem_nil⟩
  have hsat := clean_scan cc hclean chunks.flatten
  rw [parseChunks_eq_parse] at h
  have hroot : (toValue q.root).AllStrings Escapable := by
    rcases returned_cases h with ⟨-, hres⟩ | ⟨hs, -⟩
    · rw [hres] at hec
      cases hec
    · rw [hs] at hsat
      exact hsat (congrArg some hec)
  refine ⟨hroot, fun pretty caps w s hrun => ?_⟩
  exact (offends_iff q.root).mp ((returned_verdict hrun).2 rfl).1 hroot

/-- The document `["\n"]`, with its string written as an escape sequence. -/
theorem parsed_escapable_linefeed :
    (toValue (.array [.string [0x0a]])).AllStrings Escapable ∧
      ∀ pretty caps w s, serializeAll .binary
        (Serializer.init (.array [.string [0x0a]]) pretty) caps ≠
          .returned w .illegalCharInString s :=
  parsed_escapable .binary .empty (some 1) [[0x5b, 0x22, 0x5c], [0x6e, 0x22, 0x5d]] _ _ rfl rfl

end Jopp
