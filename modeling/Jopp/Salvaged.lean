import Jopp.Serializer.Kept
import Jopp.Parser.Leading
import Jopp.Transfer

/-!
# Jopp.Salvaged

What a receiver finds whose sender goes on after `illegalCharInString`.

* `Stumbles`: the text has a comma directly behind an opening delimiter. `value_stumbles`: so does
  the text of a tree that has a block which does not start well.
* `salvaged_iff`: a parser completes on what was sent exactly if all blocks start well, and then
  with the tree that is kept.
-/

namespace Jopp

variable {cc : CharConv} {pretty : Bool} {d d' : Nat} {u w : Str}

/-! ## Values and blocks -/

theorem leads_nil : Leads [] d d := fun _ hn => hn

theorem leads_itemReports (hcc : cc.WritesPlain) {depth : Nat} {first : Bool} {key : Str}
    {v : Value} {inner : Drain.Queue Byte}
    (h : Leads (Drain.salvage inner) (d + 1 + v.opens) (d + 1)) :
    Leads (Drain.salvage (itemReports cc pretty depth first key v inner)) (d + 1) (d + 1) := by
  unfold itemReports
  cases htoken : itemToken cc pretty depth first key v with
  | none => exact leads_nil
  | some tok => exact (leads_itemToken hcc htoken).append h

theorem leads_block (hcc : cc.WritesPlain) {range : List ItemPointer} {depth : Nat}
    (h : ∀ item ∈ range, Leads (Drain.salvage (item.value.reports cc pretty depth))
      (d + 1 + item.value.opens) (d + 1)) (first : Bool) :
    Leads (Drain.salvage (blockReports cc pretty depth first range)) (d + 1) (d + 1) := by
  induction range generalizing first with
  | nil => exact leads_nil
  | cons item range ih =>
    obtain ⟨hitem, hrange⟩ := List.forall_mem_cons.mp h
    rw [blockReports, Drain.salvage_append]
    exact (leads_itemReports hcc hitem).append (ih hrange false)

theorem terminator_cases (c : Container) :
    c.terminator = Delimiters.endArray ∨ c.terminator = Delimiters.endObject := by
  cases c with
  | object ms => exact .inr rfl
  | array vs => exact .inl rfl

theorem leads_container (hcc : cc.WritesPlain) {c : Container}
    (h : ∀ item ∈ itemPointers c, ∀ d, Leads (Drain.salvage (item.value.reports cc pretty (d + 1)))
      (d + 1 + item.value.opens) (d + 1)) (d : Nat) :
    Leads (Drain.salvage (c.reports cc pretty (d + 1))) (d + 2) (d + 1) := by
  have hclose : Leads (closeText pretty (d + 1) c.terminator) (d + 2) (d + 1) :=
    leads_closeText (terminator_cases c)
  have hblock := leads_block hcc (fun item hitem => h item hitem (d + 1)) true
  rw [Container.reports, Drain.salvage_append]
  refine hblock.append ?_
  simpa [Drain.salvage] using hclose

theorem leads_reports (hcc : cc.WritesPlain) (v : Value) : ∀ d,
    Leads (Drain.salvage (v.reports cc pretty (d + 1))) (d + 1 + v.opens) (d + 1) := by
  induction v using Value.induct with
  | null | boolean | number | string => exact fun _ => leads_nil
  | object ms ih =>
    intro d
    have hrun := leads_container (c := .object ms) hcc (List.forall_mem_map.mpr ih) d
    rwa [← reports_toValue] at hrun
  | array vs ih =>
    intro d
    have hrun := leads_container (c := .array vs) hcc (List.forall_mem_map.mpr ih) d
    rwa [← reports_toValue] at hrun

/-! ## A comma behind an opening delimiter -/

def isOpener (ch : Byte) : Prop := ch = Delimiters.beginArray ∨ ch = Delimiters.beginObject

/-- Read with `d` containers open, the text has a comma directly behind an opening delimiter. -/
def Stumbles (w : Str) (d : Nat) : Prop :=
  ∃ u ch v, ∃ gap : Blank, w = u ++ ch :: (gap.val ++ Delimiters.valueSeparator :: v) ∧
    isOpener ch ∧ ∃ d', Leads u d (d' + 1)

theorem starter_isOpener (c : Container) : isOpener c.starter := by
  cases c with
  | object ms => exact .inr rfl
  | array vs => exact .inl rfl

theorem Stumbles.append (h : Stumbles w d) (v : Str) : Stumbles (w ++ v) d := by
  obtain ⟨u, ch, v', gap, rfl, hch, hu⟩ := h
  exact ⟨u, ch, v' ++ v, gap, by simp, hch, hu⟩

theorem Stumbles.behind (h : Stumbles w d') (hu : Leads u d d') : Stumbles (u ++ w) d := by
  obtain ⟨u', ch, v, gap, rfl, hch, d'', hu'⟩ := h
  exact ⟨u ++ u', ch, v, gap, by simp, hch, d'', hu.append hu'⟩

theorem itemToken_written (cc : CharConv) (pretty : Bool) {item : ItemPointer}
    (h : item.isReported = false) (depth : Nat) (first : Bool) :
    ∃ tok, itemToken cc pretty depth first item.key item.value = some tok := by
  rw [← Option.ne_none_iff_exists', Ne, itemToken_isReported, h]
  exact Bool.false_ne_true

theorem block_separator {range : List ItemPointer} (depth : Nat)
    (h : range.all ItemPointer.isReported = false) :
    ∃ v, Drain.salvage (blockReports cc pretty depth false range) =
      Delimiters.valueSeparator :: v := by
  induction range with
  | nil => cases h
  | cons item range ih =>
    rw [blockReports, Drain.salvage_append]
    cases hr : item.isReported with
    | true =>
      rw [salvage_reported hr]
      exact ih (by simpa [hr] using h)
    | false =>
      obtain ⟨tok, htoken⟩ := itemToken_written cc pretty hr depth false
      obtain ⟨keyPart, head, -, -, rfl⟩ := itemToken_eq_some htoken
      rw [itemReports, htoken]
      exact ⟨_, rfl⟩

/-- A block that does not start well has nothing in front of its first separator. -/
theorem block_leading (cc : CharConv) (pretty : Bool) {range : List ItemPointer} (depth : Nat)
    (h : opensWell range = false) :
    ∃ v, Drain.salvage (blockReports cc pretty depth true range) =
      Delimiters.valueSeparator :: v := by
  cases range with
  | nil => cases h
  | cons item range =>
    obtain ⟨hr, hall⟩ : item.isReported = true ∧ range.all ItemPointer.isReported = false := by
      simpa [opensWell] using h
    rw [blockReports, Drain.salvage_append, salvage_reported hr]
    exact block_separator depth hall

theorem item_stumbles {item : ItemPointer} (hr : item.isReported = false)
    (h : ∀ head, headText cc pretty item.value = some head →
      Stumbles (head ++ Drain.salvage (item.value.reports cc pretty (d + 1))) (d + 1))
    (first : Bool) :
    Stumbles (Drain.salvage (itemReports cc pretty (d + 1) first item.key item.value
      (item.value.reports cc pretty (d + 1)))) (d + 1) := by
  obtain ⟨tok, htoken⟩ := itemToken_written cc pretty hr (d + 1) first
  obtain ⟨keyPart, head, hkey, hhead, rfl⟩ := itemToken_eq_some htoken
  rw [itemReports, htoken]
  show Stumbles (beforeItem pretty (d + 1) first ++ keyPart ++ head ++ _) (d + 1)
  rw [List.append_assoc]
  exact (h head hhead).behind ((leads_beforeItem pretty (d + 1) first).append (leads_keyText hkey))

theorem block_stumbles (hcc : cc.WritesPlain) {range : List ItemPointer} {item : ItemPointer}
    (hitem : item ∈ range) (hr : item.isReported = false)
    (h : ∀ head, headText cc pretty item.value = some head →
      Stumbles (head ++ Drain.salvage (item.value.reports cc pretty (d + 1))) (d + 1))
    (first : Bool) :
    Stumbles (Drain.salvage (blockReports cc pretty (d + 1) first range)) (d + 1) := by
  induction range generalizing first with
  | nil => cases hitem
  | cons other range ih =>
    rw [blockReports, Drain.salvage_append]
    rcases List.mem_cons.mp hitem with rfl | hitem
    · exact (item_stumbles hr h first).append _
    · exact (ih hitem false).behind (leads_itemReports hcc (leads_reports hcc other.value d))

/-- What is in the way of a container that does not start well. -/
theorem container_cases {c : Container} (h : c.startsWell = false) :
    opensWell (itemPointers c) = false ∨
      ∃ item ∈ itemPointers c, item.isReported = false ∧ item.value.startsWell = false := by
  by_contra hall
  simp only [not_or, not_exists, not_and, Bool.not_eq_false] at hall
  rw [(startsWell_iff c).mpr hall] at h
  cases h

theorem leads_openText (c : Container) : Leads (c.openText pretty) (d + 1) (d + 2) := by
  cases c with
  | object ms => exact (leads_open (.inr rfl)).append (leads_lineBreak pretty)
  | array vs => exact (leads_open (.inl rfl)).append (leads_lineBreak pretty)

theorem container_stumbles (hcc : cc.WritesPlain) {c : Container} (h : c.startsWell = false)
    (hitems : ∀ item ∈ itemPointers c, item.value.startsWell = false → ∀ d head,
      headText cc pretty item.value = some head →
      Stumbles (head ++ Drain.salvage (item.value.reports cc pretty (d + 1))) (d + 1)) (d : Nat) :
    Stumbles (c.openText pretty ++ Drain.salvage (c.reports cc pretty (d + 1))) (d + 1) := by
  rw [Container.reports, Drain.salvage_append, ← List.append_assoc]
  refine Stumbles.append ?_ _
  rcases container_cases h with hopens | ⟨item, hitem, hr, hwell⟩
  · obtain ⟨v, hv⟩ := block_leading cc pretty (d + 2) hopens
    rw [hv]
    exact ⟨[], c.starter, v, ⟨lineBreak pretty, lineBreak_blank⟩, by simp [Container.openText],
      starter_isOpener c, d, leads_nil⟩
  · exact (block_stumbles hcc hitem hr (hitems item hitem hwell (d + 1)) true).behind
      (leads_openText c)

theorem value_stumbles (hcc : cc.WritesPlain) (v : Value) : v.startsWell = false → ∀ d head,
    headText cc pretty v = some head →
    Stumbles (head ++ Drain.salvage (v.reports cc pretty (d + 1))) (d + 1) := by
  induction v using Value.induct with
  | null | boolean | number | string =>
    intro h
    cases h
  | object ms ih =>
    intro h d head hhead
    have hrun := container_stumbles (c := .object ms) hcc h (List.forall_mem_map.mpr ih) d
    rw [← reports_toValue] at hrun
    cases hhead
    exact hrun
  | array vs ih =>
    intro h d head hhead
    have hrun := container_stumbles (c := .array vs) hcc h (List.forall_mem_map.mpr ih) d
    rw [← reports_toValue] at hrun
    cases hhead
    exact hrun

/-! ## The text -/

theorem init_level (t : Container) (pretty : Bool) : (countOf (t.openText pretty)).At 1 := by
  have hlevel := (unfinished_init t pretty).level (List.cons_ne_nil _ _)
  rwa [init_rangeToWrite, List.nil_append] at hlevel

/-- The outermost container is open up to the last two bytes. -/
theorem allText_split (hcc : cc.WritesPlain) (t : Container) (pretty : Bool) :
    ∃ body ch, t.allText cc pretty = body ++ [ch, newline] ∧ (countOf body).At 1 := by
  have hblock : Leads (Drain.salvage (blockReports cc pretty 1 true (itemPointers t))) 1 1 :=
    leads_block hcc (fun item _ => leads_reports hcc item.value 0) true
  have hgap : Leads (closeGap pretty 0).val 1 1 := leads_blank (closeGap pretty 0).property
  refine ⟨t.openText pretty ++ (Drain.salvage (blockReports cc pretty 1 true (itemPointers t)) ++
    (closeGap pretty 0).val), t.terminator, ?_, ?_⟩
  · simp [Container.allText, Container.reports, Drain.salvage_append, Drain.salvage, closeText_eq]
  · rw [countOf_append]
    exact (hblock.append hgap) _ (init_level t pretty)

theorem not_ended_of_rest (hcc : cc.WritesPlain) {t : Container} {rest : Str}
    (htext : w ++ rest = t.allText cc pretty) (hrest : 1 < rest.length) : ¬ (countOf w).Ended := by
  obtain ⟨body, ch, hbody, hat⟩ := allText_split hcc t pretty
  have hlen : w.length ≤ body.length := by
    have := congrArg List.length (htext.trans hbody)
    simp only [List.length_append, List.length_cons, List.length_nil] at this
    omega
  obtain ⟨u, rfl⟩ : w <+: body :=
    List.prefix_of_prefix_length_le ⟨rest, htext⟩ ⟨[ch, newline], hbody.symm⟩ hlen
  exact not_ended_of_append hat.not_ended

theorem allText_stumbles (hcc : cc.WritesPlain) (pretty : Bool) {t : Container}
    (h : t.startsWell = false) :
    ∃ u ch v, ∃ gap : Blank,
      t.allText cc pretty = u ++ ch :: (gap.val ++ Delimiters.valueSeparator :: v) ∧
      isOpener ch ∧ ¬ (countOf u).Ended ∧ (countOf u).place.quoted = false := by
  rw [Container.allText, Container.reports, Drain.salvage_append]
  rcases container_cases h with hopens | ⟨item, hitem, hr, hwell⟩
  · obtain ⟨v, hv⟩ := block_leading cc pretty 1 hopens
    rw [hv]
    exact ⟨[], t.starter, v ++ Drain.salvage [some (closeText pretty 0 t.terminator)],
      ⟨lineBreak pretty, lineBreak_blank⟩, by simp [Container.openText], starter_isOpener t,
      by decide, rfl⟩
  · obtain ⟨u, ch, v, gap, hblock, hch, d', hu⟩ :=
      block_stumbles hcc hitem hr (value_stumbles hcc item.value hwell 0) true
    have hat := hu _ (init_level t pretty)
    rw [← countOf_append] at hat
    rw [hblock]
    exact ⟨t.openText pretty ++ u, ch, v ++ Drain.salvage [some (closeText pretty 0 t.terminator)],
      gap, by simp, hch, hat.not_ended, hat.1⟩

/-- **What arrives** when the sender goes on whatever the calls return. A parser completes on it
exactly if at most the newline at the end is missing, no block that was written starts with a
reported item that is followed by another one, and what is kept has no empty key and is not too
deep. It completes with what is kept. -/
theorem salvaged_iff (cc : CharConv) (hcc : cc.RoundTrips) (hplain : cc.Plain)
    (hwrites : cc.WritesPlain) (t : Container) (ht : t.Ordered)
    (hnum : (toValue t.kept).NumbersOnly) (pretty : Bool) (caps : List Nat)
    (maxLevels : Option Nat) (c : Container) :
    let run := serializeEach cc (Serializer.init t pretty) caps
    Completes cc maxLevels (run.1.flatMap Call.written) c ↔
      (run.2.allText cc).length ≤ 1 ∧ t.startsWell = true ∧ (toValue t.kept).KeysNonEmpty ∧
        Allows maxLevels t.kept.depth ∧ c = t.kept := by
  intro run
  have htext : run.1.flatMap Call.written ++ run.2.allText cc = t.allText cc pretty :=
    (accounts_each rfl).1.trans (init_accounts cc t pretty).1
  by_cases hrest : (run.2.allText cc).length ≤ 1
  · cases hwell : t.startsWell with
    | true =>
      have hord : t.kept.Ordered := by
        unfold Container.Ordered
        rw [toValue_kept]
        exact kept_ordered _ ht
      rw [allText_kept hwell] at htext
      have hback := completes_text hcc hord (container_kept_escapable t) hnum htext hrest
        maxLevels c
      rw [hback]
      exact ⟨fun h => ⟨hrest, rfl, h⟩, fun h => h.2.2⟩
    | false =>
      refine iff_of_false (fun h => ?_) fun h => by cases h.2.1
      obtain ⟨u, ch, v, gap, hall, hch, hended, hq⟩ := allText_stumbles hwrites pretty hwell
      have happend := h.append (run.2.allText cc)
      rw [htext, hall] at happend
      exact leading_comma hplain hended hq hch gap v maxLevels c happend
  · refine iff_of_false (fun h => ?_) fun h => hrest h.1
    exact not_completes_of_open hplain (not_ended_of_rest hwrites htext (Nat.lt_of_not_le hrest))
      maxLevels c h

/-- Of `[{},"\f"]` the string is reported, and `[{}]` arrives. -/
theorem salvaged_iff_last :
    let run := serializeEach .binary
      (Serializer.init (.array [.object [], .string [0x0c]]) false) [2, 9, 9]
    run.1.map Call.ec = [.bufferIsFull, .illegalCharInString, .completed] ∧
      Completes .binary none (run.1.flatMap Call.written) (.array [.object []]) :=
  ⟨rfl, (salvaged_iff .binary binary_roundTrips binary_plain binary_writesPlain
    (.array [.object [], .string [0x0c]]) (by decide) (by decide) false [2, 9, 9] none
    (.array [.object []])).mpr ⟨by decide, rfl, by decide, fun _ hk => (by cases hk), rfl⟩⟩

end Jopp
