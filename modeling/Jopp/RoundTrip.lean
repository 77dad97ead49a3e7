import Jopp.Serializer.Written
import Jopp.Parser.Complete

/-!
# Jopp.RoundTrip

Parsing what the serializer wrote. The serializer leaves out an empty key together with its colon,
so the parser finds a value where the key of the member should be (`emptyKey_fails`), and the error
ends the run however deep it occurs (`value_fails`). A tree comes back exactly if it has no empty
key (`roundTrip_iff`).
-/

namespace Jopp

open Resumable

variable {cc : CharConv} {pretty : Bool} {depth : Nat} {p : Parser}

/-! ## Runs that fail -/

/-- The strict machine stops with an error the parser has as well. -/
def Fails (cc : CharConv) (s : Parser) (w : Str) : Prop :=
  ∃ q ec n, scan (strictStep cc) s w = .stopped q (some ec) n ∧ ec ≠ .completed ∧
    (ec = .illegalDelimiter → q.currentState ≠ .value)

theorem Fails.after {s s' : Parser} {w w' : Str} (h : Reads (strictStep cc) s w s' w')
    (h' : Fails cc s' w') : Fails cc s (w ++ w') := by
  obtain ⟨q, ec, n, hstop, hec⟩ := h'
  exact ⟨q, ec, w.length + n, by rw [h, hstop, Result.after_stopped], hec⟩

theorem Fails.after_runs {s : Parser} {w u : Str} {outcome : Option Container}
    {f : Container → Parser} (h : Runs cc s w outcome f u)
    (h' : ∀ c, outcome = some c → Fails cc (f c) u) : Fails cc s (w ++ u) := by
  cases outcome with
  | some c => exact Fails.after h (h' c rfl)
  | none =>
    obtain ⟨q, n, hstop⟩ := h
    exact ⟨q, _, n, hstop, by decide, (nomatch ·)⟩

theorem Fails.parse {root : Container} {maxLevels : Option Nat} {w : Str}
    (h : Fails cc (Parser.init root maxLevels) w) :
    ∃ res q, parse cc (Parser.init root maxLevels) w = .returned res q ∧ res.ec ≠ .completed := by
  obtain ⟨q, ec, n, hstop, hec, hstate⟩ := h
  obtain ⟨r, hr, -⟩ := parse_of_strict hstop hstate
  exact ⟨_, r, hr, hec⟩

section

variable {cs : List ParserContext} {ch : Byte}

theorem fails_beforeKey (hw : isWhitespace ch = false) (hq : ch ≠ Delimiters.stringBeginEnd)
    (he : ch ≠ Delimiters.endObject) (u : Str) : Fails cc (p.enter .beforeKey cs) (ch :: u) := by
  have hne : (p.enter .beforeKey cs).currentState ≠ .value := (nomatch ·)
  have hpass : pass cc (p.enter .beforeKey cs) ch =
      .ret (p.enter .beforeKey cs) .illegalDelimiter := by
    show onBeforeKey _ _ = _
    simp [onBeforeKey, hw, hq, he]
  exact ⟨_, _, 1, scan_cons_error u (eat_ret (not_misplaced_of_state hne) hpass), by decide,
    fun _ => hne⟩

theorem fails_beforeValue (hw : isWhitespace ch = false) (hc : ch ≠ Delimiters.nameSeparator)
    (u : Str) : Fails cc (p.enter .beforeValue cs) (ch :: u) := by
  have hne : (p.enter .beforeValue cs).currentState ≠ .value := (nomatch ·)
  have hpass : pass cc (p.enter .beforeValue cs) ch =
      .ret (p.enter .beforeValue cs) .illegalDelimiter := by
    show onBeforeValue _ _ = _
    simp [onBeforeValue, hw, hc]
  exact ⟨_, _, 1, scan_cons_error u (eat_ret (not_misplaced_of_state hne) hpass), by decide,
    fun _ => hne⟩

end

/-! ## A member without its key -/

/-- The text of a value that is not a string cannot be taken for a key. -/
theorem text_head (hcc : cc.RoundTrips) (pretty : Bool) (depth : Nat) {v : Value}
    (hnum : v.isNaN = false) (hstr : ∀ s, v ≠ .string s) :
    ∃ ch w, v.text cc pretty depth = ch :: w ∧ isWhitespace ch = false ∧
      ch ≠ Delimiters.stringBeginEnd ∧ ch ≠ Delimiters.endObject := by
  have hword : ∀ {w : Str}, Spelled cc w v → v.text cc pretty depth = w →
      ∃ ch w, v.text cc pretty depth = ch :: w ∧ isWhitespace ch = false ∧
        ch ≠ Delimiters.stringBeginEnd ∧ ch ≠ Delimiters.endObject := by
    rintro w ⟨-, hne, hplain⟩ htext
    cases w with
    | nil => exact absurd rfl hne
    | cons ch w =>
      obtain ⟨hw, -, -, -, he, -, hq⟩ := plain_ne (hplain ch (List.mem_cons_self ..))
      exact ⟨ch, w, htext, hw, hq, he⟩
  cases v with
  | null => exact hword spelled_null (text_scalar rfl rfl)
  | boolean b => exact hword (spelled_boolean b) (text_scalar rfl rfl)
  | number x => exact hword (spelled_number hcc hnum) (text_scalar rfl rfl)
  | string s => exact absurd rfl (hstr s)
  | object ms => exact ⟨Delimiters.beginObject, _, rfl, rfl, by decide, by decide⟩
  | array vs => exact ⟨Delimiters.beginArray, _, rfl, rfl, by decide, by decide⟩

theorem fails_afterString {range : List ItemPointer}
    (hrange : ∀ item ∈ range, Escapable item.key ∧ item.value.AllStrings Escapable)
    {cs : List ParserContext} (gap : Blank) (u : Str) :
    Fails cc (p.enter .beforeValue cs)
      (Drain.queueText (blockTokens cc pretty depth false range) ++
        (gap.val ++ Delimiters.endObject :: u)) := by
  cases range with
  | nil =>
    have hne : Delimiters.endObject ≠ Delimiters.nameSeparator := by decide
    show Fails cc _ (gap.val ++ Delimiters.endObject :: u)
    exact Fails.after (reads_blank rfl gap.val gap.property _) (fails_beforeValue rfl hne u)
  | cons item range =>
    obtain ⟨hkey, hval⟩ := hrange item (List.mem_cons_self ..)
    cases hpart : keyText pretty item.key with
    | none => exact absurd hkey ((keyText_eq_none pretty).mp hpart)
    | some keyPart =>
      have hne : Delimiters.valueSeparator ≠ Delimiters.nameSeparator := by decide
      rw [queueText_item hpart (writable_of_escapable hval)]
      exact fails_beforeValue rfl hne _

/-- Where the first member of an object has the empty key, the parser finds its value, or takes
it for the key. -/
theorem emptyKey_fails (hcc : cc.RoundTrips) {v : Value} {range : List ItemPointer}
    (hesc : v.AllStrings Escapable) (hnum : v.isNaN = false)
    (hrange : ∀ item ∈ range, Escapable item.key ∧ item.value.AllStrings Escapable)
    {c : Container} {rest : List ParserContext} (gap : Blank) (u : Str) :
    Fails cc (p.enter .beforeKey (⟨[], c⟩ :: rest))
      (blockBody cc pretty depth (⟨[], v⟩ :: range) ++
        (gap.val ++ Delimiters.endObject :: u)) := by
  rw [blockBody_cons ⟨[], v⟩ keyWritten_element (writable_of_escapable hesc),
    List.append_assoc, List.append_assoc]
  refine Fails.after (reads_blank rfl _ (itemGap pretty depth).property _) ?_
  by_cases hstr : ∀ s, v ≠ .string s
  · obtain ⟨ch, w, htext, hw, hq, he⟩ := text_head hcc pretty depth hnum hstr
    rw [htext]
    exact fails_beforeKey hw hq he _
  · simp only [not_forall, not_not] at hstr
    obtain ⟨s, rfl⟩ := hstr
    have hwritable : Value.Writable cc pretty depth (.string s) := writable_of_escapable hesc
    obtain ⟨w, hw⟩ := Option.ne_none_iff_exists'.mp hwritable.head
    obtain ⟨body, rfl, -⟩ := wrapString_quoted hw
    rw [text_scalar hw rfl]
    exact Fails.after (reads_key body _) (fails_afterString hrange gap u)

/-! ## At any depth -/

theorem runs_item {k : Kind} (label : Label k) {v : Value} (hlaid : Laid cc pretty depth v)
    (hlimit : p.maxLevels = none) {c : Container} (hk : c.kind = k) (rest : List ParserContext)
    (u : Str) :
    ∃ outcome : Option Container, (∀ c', outcome = some c' → c'.kind = k) ∧
      Runs cc (p.enter k.start (⟨[], c⟩ :: rest))
        (label.text ++ v.text cc pretty depth ++ [Delimiters.valueSeparator]) outcome
        (fun c' => p.enter k.start (⟨[], c'⟩ :: rest)) u := by
  obtain ⟨cst, htext, -⟩ := hlaid
  have hroom : p.Room (rest.length + 1 + cst.raw.depth) := fun n hn => by
    rw [hlimit] at hn
    cases hn
  have hvalue := runs_value spelled_plain cst label.key c rest
    (endsValue_after Blank.empty endsLiteral_comma u) hroom
  refine ⟨_, fun c' hc' => ?_, htext ▸ runs_comma label Blank.empty hk hvalue⟩
  obtain ⟨v', -, hacc⟩ := Option.bind_eq_some_iff.mp hc'
  rw [accept_kind hacc, hk]

/-- The items of a block up to the first one with an empty key in its value. -/
theorem block_fails {k : Kind} {rest : List ParserContext} (hlimit : p.maxLevels = none) (u : Str)
    {range : List ItemPointer} :
    (∀ item ∈ range, (∃ label : Label k, KeyWritten pretty depth item.key label) ∧
      item.value.Writable cc pretty depth ∧
      (item.value.KeysNonEmpty → Laid cc pretty depth item.value) ∧
      (¬ item.value.KeysNonEmpty → ∀ key c u,
        Fails cc (p.enter .value (⟨key, c⟩ :: rest)) (item.value.text cc pretty depth ++ u))) →
    (∃ item ∈ range, ¬ item.value.KeysNonEmpty) → ∀ c : Container, c.kind = k →
      Fails cc (p.enter k.start (⟨[], c⟩ :: rest)) (blockBody cc pretty depth range ++ u) := by
  induction range with
  | nil =>
    rintro - ⟨_, hitem, -⟩
    cases hitem
  | cons item range ih =>
    intro h hbad c hk
    rw [List.forall_mem_cons] at h
    obtain ⟨⟨⟨label, hkey⟩, hval, hgood, hfails⟩, hrest⟩ := h
    rw [blockBody_cons item hkey hval]
    by_cases hkeys : item.value.KeysNonEmpty
    · -- the item is stored or refused, and another one follows it
      have hbad' : ∃ item ∈ range, ¬ item.value.KeysNonEmpty := by
        obtain ⟨other, hother, hne⟩ := hbad
        rcases List.mem_cons.mp hother with rfl | hother
        · exact absurd hkeys hne
        · exact ⟨other, hother, hne⟩
      cases range with
      | nil =>
        obtain ⟨_, hnone, -⟩ := hbad'
        cases hnone
      | cons next range =>
        obtain ⟨⟨nextLabel, hnextKey⟩, hnext, -⟩ := hrest next (List.mem_cons_self ..)
        obtain ⟨outcome, hkind, hruns⟩ := runs_item label (hgood hkeys) hlimit hk rest
          (blockBody cc pretty depth (next :: range) ++ u)
        have hfails' := Fails.after_runs hruns fun c' hc' => ih hrest hbad' c' (hkind c' hc')
        rw [queueText_more hnextKey hnext]
        simpa using hfails'
    · rw [List.append_assoc, List.append_assoc]
      exact Fails.after (reads_label label _) (hfails hkeys _ c _)

theorem emptyKey_first {ms : List (Str × Value)} (hsorted : SortedMap.Sorted ms)
    (hkey : [] ∈ ms.map Prod.fst) : ∃ v ms', ms = ([], v) :: ms' := by
  cases ms with
  | nil => cases hkey
  | cons kv ms =>
    obtain ⟨k, v⟩ := kv
    rcases List.mem_cons.mp hkey with rfl | hkey
    · exact ⟨v, ms, rfl⟩
    · obtain ⟨kv', hkv', hnil⟩ := List.mem_map.mp hkey
      have hlt := List.rel_of_pairwise_cons hsorted hkv'
      rw [hnil] at hlt
      exact absurd hlt (List.not_lt_nil k)

/-- A container with an empty key at any depth, given that its items with one fail. -/
theorem container_fails (hcc : cc.RoundTrips) {c : Container} (hlimit : p.maxLevels = none)
    (h : ∀ item ∈ itemPointers c, item.value.Ordered → item.value.AllStrings Escapable →
      item.value.NumbersOnly → ¬ item.value.KeysNonEmpty → ∀ depth key c rest u,
      Fails cc (p.enter .value (⟨key, c⟩ :: rest)) (item.value.text cc pretty depth ++ u))
    (hord : (toValue c).Ordered) (hesc : (toValue c).AllStrings Escapable)
    (hnum : (toValue c).NumbersOnly) (hkeys : ¬ (toValue c).KeysNonEmpty)
    (depth : Nat) (cs : List ParserContext) (u : Str) :
    Fails cc (p.enter .value cs) ((toValue c).text cc pretty depth ++ u) := by
  have hroom : p.Room (cs.length + 1) := fun n hn => by rw [hlimit] at hn; cases hn
  obtain ⟨tail, htext⟩ : ∃ tail, (toValue c).text cc pretty depth ++ u =
      c.kind.opener :: (blockBody cc pretty (depth + 1) (itemPointers c) ++
        ((closeGap pretty depth).val ++ c.kind.closer :: tail)) := by
    rw [text_toValue, tokens_text c (writable_of_escapable hesc)]
    exact ⟨(if depth = 0 then [newline] else []) ++ u, by simp⟩
  rw [htext]
  refine Fails.after (w := [c.kind.opener]) (Reads.single (eat_open c.kind hroom) _) ?_
  by_cases hown : [] ∈ (toValue c).keys
  · cases c with
    | array vs => cases hown
    | object ms =>
      obtain ⟨v, ms, rfl⟩ := emptyKey_first (Value.all_object.mp hord).1 hown
      have hmembers := List.forall_mem_cons.mp (allStrings_object.mp hesc)
      have hv : v.isNaN = false :=
        (Value.all_object.mp hnum).2 ([], v) (List.mem_cons_self ..) v (mem_nodes_self v)
      have hrange : ∀ item ∈ itemPointers (.object ms),
          Escapable item.key ∧ item.value.AllStrings Escapable :=
        List.forall_mem_map.mpr hmembers.2
      exact emptyKey_fails hcc hmembers.1.2 hv hrange (closeGap pretty depth) tail
  · refine block_fails hlimit _ (fun item hitem => ⟨keys_written hesc hown hitem,
      writable_of_escapable (all_item hesc hitem), fun hne => ?_, fun hne key c u => ?_⟩) ?_ _
      (kind_empty c.kind)
    · exact value_laid hcc item.value depth (all_item hesc hitem) (all_item hnum hitem) hne
    · exact h item hitem (all_item hord hitem) (all_item hesc hitem) (all_item hnum hitem) hne _ _ _
        _ _
    · by_contra hall
      simp only [not_exists, not_and, not_not] at hall
      exact hkeys (all_container.mpr ⟨hown, hall⟩)

theorem value_fails (hcc : cc.RoundTrips) (hlimit : p.maxLevels = none) (v : Value) :
    v.Ordered → v.AllStrings Escapable → v.NumbersOnly → ¬ v.KeysNonEmpty →
      ∀ depth key c rest u,
        Fails cc (p.enter .value (⟨key, c⟩ :: rest)) (v.text cc pretty depth ++ u) := by
  induction v using Value.induct with
  | null | boolean | number | string =>
    intro _ _ _ hkeys
    simp [Value.KeysNonEmpty, Value.keys] at hkeys
  | object ms ih =>
    intro hord hesc hnum hkeys depth key c rest u
    exact container_fails (c := .object ms) hcc hlimit (List.forall_mem_map.mpr ih) hord hesc hnum
      hkeys depth _ u
  | array vs ih =>
    intro hord hesc hnum hkeys depth key c rest u
    exact container_fails (c := .array vs) hcc hlimit (List.forall_mem_map.mpr ih) hord hesc hnum
      hkeys depth _ u

/-! ## There and back -/

theorem membersLayOut_refl {ms : List (Str × Value)} (h : ∀ kv ∈ ms, kv.2.LaysOut kv.2) :
    MembersLayOut ms ms := by
  induction ms with
  | nil => rfl
  | cons kv ms ih =>
    rw [List.forall_mem_cons] at h
    exact ⟨kv.2, ms, rfl, h.1, ih h.2⟩

theorem elementsLayOut_refl {vs : List Value} (h : ∀ v ∈ vs, v.LaysOut v) :
    ElementsLayOut vs vs := by
  induction vs with
  | nil => rfl
  | cons v vs ih =>
    rw [List.forall_mem_cons] at h
    exact ⟨v, vs, rfl, h.1, ih h.2⟩

theorem laysOut_refl (v : Value) : v.LaysOut v := by
  induction v using Value.induct with
  | null | boolean | number | string => rfl
  | object ms ih => exact ⟨ms, ms, membersLayOut_refl ih, List.Perm.refl ms, rfl⟩
  | array vs ih => exact ⟨vs, elementsLayOut_refl ih, rfl⟩

/-- **Round trip.** What a serializer writes of a tree into one large buffer is parsed back to
that tree exactly if no object in it has the empty key. -/
theorem roundTrip_iff (cc : CharConv) (hcc : cc.RoundTrips) (t : Container) (ht : t.Ordered)
    (hesc : (toValue t).AllStrings Escapable) (hnum : (toValue t).NumbersOnly) (pretty : Bool)
    (root : Container) (big : Nat) (hbig : (t.text cc pretty).length ≤ big) :
    ∃ w s, serialize cc (Serializer.init t pretty) big = .returned w .completed s ∧
      ((∃ res q, parse cc (Parser.init root none) w = .returned res q ∧ res.ec = .completed ∧
        q.root = t) ↔ (toValue t).KeysNonEmpty) := by
  obtain ⟨s, hs⟩ := serialize_big (fun ho => (offends_iff t).mp ho hesc) hbig
  refine ⟨_, s, hs, ?_⟩
  constructor
  · rintro ⟨res, q, hrun, hec, -⟩
    by_contra hkeys
    have htext : t.text cc pretty = (toValue t).text cc pretty 0 ++ [] := by
      rw [List.append_nil, text_toValue]
      rfl
    have hfails : Fails cc (Parser.init root none) (t.text cc pretty) := by
      rw [htext]
      exact container_fails (p := Parser.init root none) hcc rfl (fun item _ => value_fails hcc rfl
        item.value) ht hesc hnum hkeys 0 [] []
    obtain ⟨res', q', hrun', hec'⟩ := hfails.parse
    rw [hrun] at hrun'
    cases hrun'
    exact hec' hec
  · intro hkeys
    obtain ⟨d, htext, hraw⟩ := written_document hcc pretty hesc hnum hkeys
    have hload : d.raw.load = some (toValue t) := by
      rw [hraw]
      exact load_laysOut _ _ (laysOut_refl _) ht
    have hroom : (Parser.init root none).Room d.raw.depth := fun k hk => nomatch hk
    obtain ⟨q, hq, hroot⟩ := (parse_document spelled_plain d hroom [newline]).1 t hload
    rw [htext]
    exact ⟨_, q, hq, rfl, hroot⟩

/-- `{"a": [1, {}], "b": "\n"}`, printed prettily. -/
theorem roundTrip_iff_nested :
    ∃ w s, serialize .binary (Serializer.init (.object
        [([0x61], .array [.number .one, .object []]), ([0x62], .string [0x0a])]) true) 64 =
          .returned w .completed s ∧
      ∃ res q, parse .binary (Parser.init .empty none) w = .returned res q ∧ res.ec = .completed ∧
        q.root =
          .object [([0x61], .array [.number .one, .object []]), ([0x62], .string [0x0a])] := by
  obtain ⟨w, s, hs, hback⟩ := roundTrip_iff .binary binary_roundTrips
    (.object [([0x61], .array [.number .one, .object []]), ([0x62], .string [0x0a])])
    (by decide) (by decide) (by decide) true .empty 64 (by decide)
  exact ⟨w, s, hs, hback.mpr (by decide)⟩

/-- `{"": null}` is written as `{null}`. -/
theorem roundTrip_emptyKey :
    ¬ ∀ cc : CharConv, cc.RoundTrips → ∀ t : Container, t.Ordered →
      (toValue t).AllStrings Escapable → (toValue t).NumbersOnly → ∀ pretty root big w s,
        (t.text cc pretty).length ≤ big →
        serialize cc (Serializer.init t pretty) big = .returned w .completed s →
        ∃ res q, parse cc (Parser.init root none) w = .returned res q ∧ res.ec = .completed ∧
          q.root = t := by
  intro h
  obtain ⟨res, q, hrun, hec, -⟩ := h .binary binary_roundTrips (.object [([], .null)])
    (by decide) (by decide) (by decide) false .empty 7
    [0x7b, 0x6e, 0x75, 0x6c, 0x6c, 0x7d, 0x0a] _ (by decide) rfl
  have hillegal : parse .binary (Parser.init .empty none)
      [0x7b, 0x6e, 0x75, 0x6c, 0x6c, 0x7d, 0x0a] = .returned ⟨2, .illegalDelimiter, 1, 2⟩ _ := rfl
  rw [hillegal] at hrun
  cases hrun
  cases hec

end Jopp
