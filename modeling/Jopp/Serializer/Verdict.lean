import Jopp.Serializer.Run

/-!
# Jopp.Serializer.Verdict

How a run of the serializer over a sequence of buffers ends.

* `serialize_verdict`: with `completed` or with `illegalCharInString`, depending on the strings of
  the tree alone; in the second case nothing of the first offending item is written.
* `serialize_chunks_iff`: the call that writes some of the last closing delimiter returns
  `completed`, even when the rest of it did not fit. So the bytes are those of a single call
  exactly if no buffer ends inside the text of that delimiter.
-/

namespace Jopp

variable {cc : CharConv} {pretty : Bool}

/-! ## Which items cannot be written -/

theorem wrapString_eq_none {s : Str} : wrapString s = none ↔ ¬ Escapable s := by
  unfold wrapString Escapable
  cases escape s <;> simp

theorem keyText_eq_none (pretty : Bool) {key : Str} :
    keyText pretty key = none ↔ ¬ Escapable key := by
  unfold keyText
  by_cases hk : key = []
  · simp [hk]
  · rw [if_neg hk, ← wrapString_eq_none]
    cases wrapString key <;> simp

theorem itemToken_eq_none {depth : Nat} {first : Bool} {key : Str} {v : Value} :
    itemToken cc pretty depth first key v = none ↔
      ¬ Escapable key ∨ headText cc pretty v = none := by
  rw [← keyText_eq_none pretty]
  unfold itemToken
  cases keyText pretty key with
  | none => simp
  | some keyPart => cases headText cc pretty v <;> simp

theorem itemToken_eq_some {depth : Nat} {first : Bool} {key tok : Str} {v : Value}
    (h : itemToken cc pretty depth first key v = some tok) :
    ∃ keyPart head, keyText pretty key = some keyPart ∧ headText cc pretty v = some head ∧
      tok = beforeItem pretty depth first ++ keyPart ++ head := by
  unfold itemToken at h
  split at h
  · cases h
  rename_i keyPart hkey
  split at h
  · cases h
  rename_i head hhead
  cases h
  exact ⟨keyPart, head, hkey, hhead, rfl⟩

theorem none_mem_blockTokens (depth : Nat) (first : Bool) (range : List ItemPointer)
    (h : ∀ item ∈ range, ∀ d,
      headText cc pretty item.value = none ∨ none ∈ item.value.tokens cc pretty d ↔
        ¬ item.value.AllStrings Escapable) :
    none ∈ blockTokens cc pretty depth first range ↔
      ∃ item ∈ range, ¬ (Escapable item.key ∧ item.value.AllStrings Escapable) := by
  induction range generalizing first with
  | nil => simp [blockTokens]
  | cons item range ih =>
    have hitem := h item (List.mem_cons_self ..) depth
    have hrest := ih false fun x hx => h x (List.mem_cons_of_mem _ hx)
    have htoken : none = itemToken cc pretty depth first item.key item.value ↔
        ¬ Escapable item.key ∨ headText cc pretty item.value = none := by
      rw [eq_comm, itemToken_eq_none]
    rw [blockTokens, List.mem_cons, List.mem_append, hrest, List.exists_mem_cons_iff, not_and_or,
      ← hitem, htoken]
    simp only [or_assoc]

/-- A token of a value is missing exactly if some string in it cannot be escaped. -/
theorem none_mem_tokens (cc : CharConv) (pretty : Bool) (v : Value) :
    ∀ depth, headText cc pretty v = none ∨ none ∈ v.tokens cc pretty depth ↔
      ¬ v.AllStrings Escapable := by
  induction v using Value.induct with
  | null | boolean | number => intro depth; simp [headText, Value.tokens, Value.AllStrings,
      Value.ownStrings]
  | string s =>
    intro depth
    simp [headText, Value.tokens, Value.AllStrings, Value.ownStrings, wrapString_eq_none]
  | object ms ih =>
    intro depth
    have hblock := none_mem_blockTokens (depth + 1) true (itemPointers (.object ms))
      (List.forall_mem_map.mpr ih)
    rw [Value.tokens, memberTokens_eq, List.mem_append, hblock, allStrings_object]
    simp [headText, itemPointers]
  | array vs ih =>
    intro depth
    have hblock := none_mem_blockTokens (depth + 1) true (itemPointers (.array vs))
      (List.forall_mem_map.mpr ih)
    rw [Value.tokens, elementTokens_eq, List.mem_append, hblock, allStrings_array]
    simp [headText, itemPointers]

/-- Some key or string value anywhere in the tree contains a control byte other than newline and
tab. -/
def Container.Offends (c : Container) : Prop :=
  ∃ n ∈ (toValue c).nodes, ∃ s ∈ n.ownStrings, ∃ ch ∈ s,
    ch ≤ 0x1f ∧ ch ≠ newline ∧ ch ≠ horizontalTab

theorem offends_iff (c : Container) : c.Offends ↔ ¬ (toValue c).AllStrings Escapable := by
  simp [Container.Offends, Value.AllStrings, Value.All, escapable_iff, isUnsupportedControl]

theorem none_mem_container_tokens (cc : CharConv) (pretty : Bool) (c : Container) :
    none ∈ c.tokens cc pretty 0 ↔ c.Offends := by
  have hhead : headText cc pretty (toValue c) ≠ none := by
    cases c <;> simp [toValue, headText]
  rw [offends_iff, ← none_mem_tokens cc pretty _ 0, tokens_toValue]
  simp [hhead]

/-! ## Sums of sizes -/

theorem le_sum_sizes {sizes : Nat → Nat} (h : ∀ i, 0 < sizes i) (n : Nat) :
    n ≤ ((List.range n).map sizes).sum := by
  induction n with
  | zero => exact Nat.zero_le _
  | succ n ih =>
    have := h n
    rw [List.range_succ, List.map_append, List.sum_append]
    simp only [List.map_cons, List.map_nil, List.sum_cons, List.sum_nil]
    omega

theorem sum_sizes_mono (sizes : Nat → Nat) {k n : Nat} (h : k ≤ n) :
    ((List.range k).map sizes).sum ≤ ((List.range n).map sizes).sum := by
  obtain ⟨m, rfl⟩ := Nat.exists_eq_add_of_le h
  rw [List.range_add, List.map_append, List.sum_append]
  omega

theorem take_sizes (sizes : Nat → Nat) {k n : Nat} (h : k ≤ n) :
    ((List.range n).map sizes).take k = (List.range k).map sizes := by
  rw [← List.map_take, List.take_range, Nat.min_eq_left h]

/-! ## The verdict -/

theorem run_verdict (cc : CharConv) (c : Container) (pretty : Bool) {sizes : Nat → Nat}
    (hsizes : ∀ i, 0 < sizes i) :
    ∃ n s, serializeAll cc (Serializer.init c pretty) ((List.range n).map sizes) =
        .returned (c.text cc pretty) .illegalCharInString s ∧ c.Offends ∨
      ∃ w, serializeAll cc (Serializer.init c pretty) ((List.range n).map sizes) =
        .returned w .completed s ∧ ¬ c.Offends := by
  have hroom := le_sum_sizes hsizes (Drain.decisive (c.openText pretty) (c.tokens cc pretty 0) + 1)
  obtain ⟨s, hs⟩ := run_drive cc c pretty
    ((List.range (Drain.decisive (c.openText pretty) (c.tokens cc pretty 0) + 1)).map sizes)
  rcases Drain.drive_settles _ _ _ (Nat.lt_of_succ_le hroom) with ⟨hnone, k, -, hd⟩ | ⟨hnone, hd⟩
  · rw [hd] at hs
    rw [none_mem_container_tokens] at hnone
    exact ⟨_, s, .inr ⟨_, hs, hnone⟩⟩
  · rw [hd] at hs
    rw [none_mem_container_tokens] at hnone
    exact ⟨_, s, .inl ⟨hs, hnone⟩⟩

theorem returned_verdict {c : Container} {caps : List Nat} {w : Str} {ec : SerializerErrorCode}
    {s : Serializer}
    (h : serializeAll cc (Serializer.init c pretty) caps = .returned w ec s) :
    (ec = .completed → ¬ c.Offends) ∧
      (ec = .illegalCharInString → c.Offends ∧ w = c.text cc pretty) := by
  obtain ⟨s', hs⟩ := run_drive cc c pretty caps
  rw [hs] at h
  cases h
  rw [← none_mem_container_tokens cc pretty c]
  rcases Drain.drive_cases (c.openText pretty) (c.tokens cc pretty 0) caps with
    ⟨hd, -⟩ | ⟨hnone, k, -, hd⟩ | ⟨hnone, hd⟩ <;> rw [hd]
  · exact ⟨fun hec => (by cases hec), fun hec => by cases hec⟩
  · exact ⟨fun _ => hnone, fun hec => by cases hec⟩
  · exact ⟨fun hec => (by cases hec), fun _ => ⟨hnone, rfl⟩⟩

/-- The text before the first missing token, token by token. -/
theorem queueText_before : ∀ {q : Drain.Queue Byte}, none ∈ q →
    ∃ (before : List Str) (after : Drain.Queue Byte), q = before.map some ++ none :: after ∧
      Drain.queueText q = before.flatten
  | none :: q, _ => ⟨[], q, rfl, rfl⟩
  | some t :: q, h => by
    obtain ⟨before, after, hq, htext⟩ := queueText_before (q := q) (by simpa using h)
    exact ⟨t :: before, after, by rw [hq]; rfl, by rw [Drain.queueText, htext]; rfl⟩

/-- **The serializer's verdict.** A sequence of buffers that are not empty leads to
`illegalCharInString` exactly if some string has an unsupported control byte, to `completed`
exactly if not. In the first case the bytes written are the tokens before the one of the first
offending item. -/
theorem serialize_verdict (cc : CharConv) (c : Container) (pretty : Bool) (sizes : Nat → Nat)
    (hsizes : ∀ i, 0 < sizes i) :
    ((∃ n w s, serializeAll cc (Serializer.init c pretty) ((List.range n).map sizes) =
        .returned w .illegalCharInString s) ↔ c.Offends) ∧
    ((∃ n w s, serializeAll cc (Serializer.init c pretty) ((List.range n).map sizes) =
        .returned w .completed s) ↔ ¬ c.Offends) ∧
    (∀ n w s, serializeAll cc (Serializer.init c pretty) ((List.range n).map sizes) =
        .returned w .illegalCharInString s →
      ∃ (before : List Str) (after : Drain.Queue Byte),
        c.tokens cc pretty 0 = before.map some ++ none :: after ∧
        w = c.openText pretty ++ before.flatten) := by
  obtain ⟨n, s, hrun⟩ := run_verdict cc c pretty hsizes
  refine ⟨⟨fun ⟨_, _, _, h⟩ => ((returned_verdict h).2 rfl).1, fun ho => ?_⟩,
    ⟨fun ⟨_, _, _, h⟩ => (returned_verdict h).1 rfl, fun ho => ?_⟩, fun m w s' h => ?_⟩
  · rcases hrun with ⟨h, -⟩ | ⟨w, -, hno⟩
    · exact ⟨n, _, s, h⟩
    · exact absurd ho hno
  · rcases hrun with ⟨-, hyes⟩ | ⟨w, h, -⟩
    · exact absurd hyes ho
    · exact ⟨n, w, s, h⟩
  · obtain ⟨ho, rfl⟩ := (returned_verdict h).2 rfl
    obtain ⟨before, after, htokens, htext⟩ :=
      queueText_before ((none_mem_container_tokens cc pretty c).mpr ho)
    exact ⟨before, after, htokens, by rw [← htext]; rfl⟩

/-- An object whose second member has a form feed in its string, through buffers of one byte. -/
theorem serialize_verdict_formFeed :
    ∃ n w s, serializeAll .binary
        (Serializer.init (.object [([0x61], .null), ([0x62], .array [.string [0x0c]])]) false)
        ((List.range n).map fun _ => 1) = .returned w .illegalCharInString s :=
  ((serialize_verdict .binary _ false (fun _ => 1) fun _ => Nat.one_pos).1).mpr
    ⟨.string [0x0c], by simp [toValue, Value.nodes, memberNodes, itemNodes], [0x0c],
      by simp [Value.ownStrings], 0x0c, by decide⟩

/-! ## The last closing delimiter -/

theorem closeText_length (pretty : Bool) (terminator : Byte) :
    (closeText pretty 0 terminator).length = if pretty then 3 else 2 := by
  cases pretty <;> rfl

/-- The last token of the document is its closing delimiter. -/
theorem text_length (cc : CharConv) (pretty : Bool) {c : Container} (h : ¬ c.Offends) :
    (c.text cc pretty).length =
      Drain.decisive (c.openText pretty) (c.tokens cc pretty 0) + if pretty then 3 else 2 := by
  rw [← none_mem_container_tokens cc pretty] at h
  unfold Container.text
  unfold Container.tokens at h ⊢
  have hblock : none ∉ blockTokens cc pretty 1 true (itemPointers c) := fun hn =>
    h (List.mem_append_left _ hn)
  rw [Drain.decisive_concat _ _ hblock, ← closeText_length pretty c.terminator]
  simp only [Drain.text, Drain.queueText_append hblock, Drain.queueText, List.length_append,
    List.length_nil]
  omega

theorem serialize_big {c : Container} (h : ¬ c.Offends) {big : Nat}
    (hbig : (c.text cc pretty).length ≤ big) :
    ∃ s, serialize cc (Serializer.init c pretty) big =
      .returned (c.text cc pretty) .completed s := by
  have hcall := serialize_realizes cc (Serializer.init c pretty) big
  rw [init_rangeToWrite] at hcall
  change Realizes cc pretty [] (Drain.flush big _ (pendingTokens cc pretty _)) _ at hcall
  rw [init_pendingTokens] at hcall
  have hlen := text_length cc pretty h
  have hpos : 0 < if pretty then 3 else 2 := by cases pretty <;> decide
  rcases Drain.flush_cases big (c.openText pretty) (c.tokens cc pretty 0) with
    ⟨_, _, _, _, _, _, hle⟩ | ⟨-, -, hdone⟩ | ⟨hnone, -, -⟩
  · omega
  · have hall : (Drain.text (c.openText pretty) (c.tokens cc pretty 0)).take big =
        c.text cc pretty := List.take_of_length_le hbig
    rw [hdone, hall] at hcall
    exact hcall.of_done
  · exact absurd ((none_mem_container_tokens cc pretty c).mp hnone) h

theorem serialize_big_illegal {c : Container} (h : c.Offends) {big : Nat}
    (hbig : (c.text cc pretty).length < big) :
    ∃ s, serialize cc (Serializer.init c pretty) big =
      .returned (c.text cc pretty) .illegalCharInString s := by
  have hcall := serialize_realizes cc (Serializer.init c pretty) big
  rw [init_rangeToWrite] at hcall
  change Realizes cc pretty [] (Drain.flush big _ (pendingTokens cc pretty _)) _ at hcall
  rw [init_pendingTokens] at hcall
  have hle : Drain.decisive (c.openText pretty) (c.tokens cc pretty 0) ≤
      (c.text cc pretty).length := Drain.decisive_le _ _
  rcases Drain.flush_cases big (c.openText pretty) (c.tokens cc pretty 0) with
    ⟨_, _, _, _, _, _, hfull⟩ | ⟨hnone, -, -⟩ | ⟨-, -, hfailed⟩
  · omega
  · exact absurd ((none_mem_container_tokens cc pretty c).mpr h) hnone
  · rw [hfailed] at hcall
    exact hcall.of_failed

theorem serialize_enough (cc : CharConv) (c : Container) (pretty : Bool) {enough : Nat}
    (h : (c.text cc pretty).length < enough) :
    ∃ s, serialize cc (Serializer.init c pretty) enough = .returned (c.text cc pretty)
      (if none ∈ c.tokens cc true 0 then .illegalCharInString else .completed) s := by
  by_cases ho : c.Offends
  · rw [if_pos ((none_mem_container_tokens cc true c).mpr ho)]
    exact serialize_big_illegal ho h
  · rw [if_neg (mt (none_mem_container_tokens cc true c).mp ho)]
    exact serialize_big ho (Nat.le_of_lt h)

/-- **When buffers may be cut anywhere.** Passing buffers until `completed` gives the bytes of a
single call exactly if none of them ends inside the text of the last closing delimiter, which is
two bytes long, or three when printing prettily. -/
theorem serialize_chunks_iff (cc : CharConv) (c : Container) (pretty : Bool)
    (hc : (toValue c).AllStrings Escapable) (sizes : Nat → Nat) (hsizes : ∀ i, 0 < sizes i) :
    (∀ big, (c.text cc pretty).length ≤ big → ∃ s,
      serialize cc (Serializer.init c pretty) big = .returned (c.text cc pretty) .completed s) ∧
    ((∃ n s, serializeAll cc (Serializer.init c pretty) ((List.range n).map sizes) =
        .returned (c.text cc pretty) .completed s) ↔
      ∀ k, ¬ ((c.text cc pretty).length <
          ((List.range k).map sizes).sum + (if pretty then 3 else 2) ∧
        ((List.range k).map sizes).sum < (c.text cc pretty).length)) := by
  have ho : ¬ c.Offends := fun ho => (offends_iff c).mp ho hc
  have hlen := text_length cc pretty ho
  refine ⟨fun big hbig => serialize_big ho hbig, ?_⟩
  constructor
  · rintro ⟨n, s, h⟩ k ⟨hlt, hgt⟩
    obtain ⟨s', hs⟩ := run_drive cc c pretty ((List.range n).map sizes)
    rw [hs] at h
    rcases Drain.drive_cases (c.openText pretty) (c.tokens cc pretty 0)
      ((List.range n).map sizes) with ⟨hd, -⟩ | ⟨-, j, hreach, hd⟩ | ⟨hnone, hd⟩
    · rw [hd] at h
      cases (SerializeOutcome.returned.inj h).2.1
    · have hjn : j ≤ n := by simpa using hreach.le_length
      have hword : (c.text cc pretty).take ((List.range j).map sizes).sum = c.text cc pretty := by
        rw [hd, take_sizes sizes hjn] at h
        exact (SerializeOutcome.returned.inj h).1
      have hj : (c.text cc pretty).length ≤ ((List.range j).map sizes).sum :=
        List.take_eq_self_iff _ |>.mp hword
      -- before the `j`-th buffer the last token has not been reached, after it all is written
      rcases Nat.lt_or_ge k j with hk | hk
      · have := hreach.2 k hk
        rw [take_sizes sizes (by omega)] at this
        omega
      · have := sum_sizes_mono sizes hk
        omega
    · exact absurd ((none_mem_container_tokens cc pretty c).mp hnone) ho
  · intro hcut
    obtain ⟨n, hn⟩ : ∃ n, n = Drain.decisive (c.openText pretty) (c.tokens cc pretty 0) + 1 :=
      ⟨_, rfl⟩
    have hroom := le_sum_sizes hsizes n
    obtain ⟨s, hs⟩ := run_drive cc c pretty ((List.range n).map sizes)
    refine ⟨n, s, ?_⟩
    rcases Drain.drive_settles (c.openText pretty) (c.tokens cc pretty 0)
      ((List.range n).map sizes) (by omega) with ⟨-, k, hreach, hd⟩ | ⟨hnone, -⟩
    · have hkn : k ≤ n := by simpa using hreach.le_length
      have hlt := hreach.1
      rw [take_sizes sizes hkn] at hlt
      have hk := hcut k
      rw [hs, hd, take_sizes sizes hkn]
      have hall : (Drain.text (c.openText pretty) (c.tokens cc pretty 0)).take
          ((List.range k).map sizes).sum = c.text cc pretty :=
        List.take_of_length_le (show (c.text cc pretty).length ≤ _ by omega)
      rw [hall]
      rfl
    · exact absurd ((none_mem_container_tokens cc pretty c).mp hnone) ho

/-- An object with one member through buffers of 3 bytes. -/
theorem serialize_chunks_member :
    ∃ n s, serializeAll .binary (Serializer.init (.object [([0x61], .null)]) false)
        ((List.range n).map fun _ => 3) =
      .returned ((Container.object [([0x61], .null)]).text .binary false) .completed s := by
  refine (serialize_chunks_iff .binary (.object [([0x61], .null)]) false ?_ (fun _ => 3)
    fun _ => by decide).2.mpr ?_
  · exact allStrings_object.mpr (by simp [Value.AllStrings, Value.ownStrings]; decide)
  · intro k
    have hlen : ((Container.object [([0x61], .null)]).text .binary false).length = 11 := by decide
    have hsum : ((List.range k).map fun _ => 3).sum = k * 3 := by simp
    rw [hlen, hsum]
    simp only [Bool.false_eq_true, if_false]
    omega

/-- Two bytes of the three that an empty object takes are enough for `completed`. -/
theorem serialize_chunks_truncated :
    ¬ ∀ (cc : CharConv) (c : Container) (pretty : Bool) (sizes : Nat → Nat),
      (toValue c).AllStrings Escapable → (∀ i, 0 < sizes i) → ∀ big w s,
        serialize cc (Serializer.init c pretty) big = .returned w .completed s → w.length < big →
        ∃ n s', serializeAll cc (Serializer.init c pretty) ((List.range n).map sizes) =
          .returned w .completed s' := by
  intro h
  obtain ⟨n, s', hn⟩ := h .binary .empty false (fun _ => 2) (allStrings_object.mpr (by simp))
    (fun _ => by decide) 100 [0x7b, 0x7d, 0x0a] _ rfl (by decide)
  cases n with
  | zero => cases (SerializeOutcome.returned.inj hn).2.1
  | succ n =>
    rw [List.range_succ_eq_map, List.map_cons] at hn
    have hcall : ∀ caps, ∃ s, serializeAll .binary (Serializer.init .empty false) (2 :: caps) =
        .returned [0x7b, 0x7d] .completed s := fun _ => ⟨_, rfl⟩
    obtain ⟨s, hs⟩ := hcall (((List.range n).map Nat.succ).map fun _ => 2)
    rw [hs] at hn
    exact absurd (SerializeOutcome.returned.inj hn).1 (by decide)

end Jopp
