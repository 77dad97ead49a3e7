import Jopp.Parser.Reads
import Jopp.Parser.Depth

/-!
# Jopp.Parser.Complete

What a fresh parser does with a document, followed by anything at all.

* `parse_layout`: a layout of a tree gives that tree, and the parser stops right behind it.
* `never_completes_iff`, `refusedAt_iff`: what becomes of repeated keys.
-/

namespace Jopp

open Resumable

variable {cc : CharConv} {lit : Str → Value → Prop}

theorem parse_document (hlit : PlainLiterals cc lit) (d : Document lit) {root : Container}
    {maxLevels : Option Nat} (hroom : (Parser.init root maxLevels).Room d.raw.depth) (u : Str) :
    (∀ c, d.raw.load = some (toValue c) →
      ∃ q, parse cc (Parser.init root maxLevels) (d.text ++ u) =
        .returned ⟨d.text.length, .completed, q.line, q.col⟩ q ∧ q.root = c) ∧
    (d.raw.load = none →
      ∃ q n, parse cc (Parser.init root maxLevels) (d.text ++ u) =
        .returned ⟨n, .keyAlreadyExists, q.line, q.col⟩ q) := by
  obtain ⟨hsome, hnone⟩ := runs_document hlit d hroom u
  constructor
  · intro c hc
    obtain ⟨q, hq, hroot⟩ := hsome c hc
    obtain ⟨r, hr, hcore⟩ := parse_of_strict hq (nomatch ·)
    refine ⟨r, hr, ?_⟩
    rw [← hroot, ← hcore]
    rfl
  · intro hn
    obtain ⟨q, n, hq⟩ := hnone hn
    obtain ⟨r, hr, -⟩ := parse_of_strict hq (nomatch ·)
    exact ⟨r, n, hr⟩

/-- **Every layout of a tree parses to that tree**, if the depth limit allows, whatever comes
after it. -/
theorem parse_layout (cc : CharConv) (hcc : cc.Plain) (t : Container) (ht : t.Ordered)
    (d : Document (Literal cc)) (hd : d.raw.LaysOut (toValue t)) (root : Container)
    (maxLevels : Option Nat) (hmax : ∀ k, maxLevels = some k → t.depth ≤ k) (u : Str) :
    ∃ q, parse cc (Parser.init root maxLevels) (d.text ++ u) =
      .returned ⟨d.text.length, .completed, q.line, q.col⟩ q ∧ q.root = t := by
  have hroom : (Parser.init root maxLevels).Room d.raw.depth := by
    intro k hk
    rw [laysOut_depth _ _ hd]
    exact hmax k hk
  exact (parse_document (literal_plain hcc) d hroom u).1 t (load_laysOut _ _ hd ht)

/-- The text ` {"b" : [true,],"\"":1}x`, of an object two levels deep whose keys are written in
descending order. -/
theorem parse_layout_descending :
    ∃ q, parse .binary (Parser.init .empty (some 2))
        [0x20, 0x7b, 0x22, 0x62, 0x22, 0x20, 0x3a, 0x20, 0x5b, 0x74, 0x72, 0x75, 0x65, 0x2c, 0x5d,
          0x2c, 0x22, 0x5c, 0x22, 0x22, 0x3a, 0x31, 0x7d, 0x78] =
        .returned ⟨23, .completed, q.line, q.col⟩ q ∧
      q.root = .object [([0x22], .number .one), ([0x62], .array [.boolean true])] := by
  refine parse_layout .binary binary_plain
    (.object [([0x22], .number .one), ([0x62], .array [.boolean true])]) ?_
    ⟨⟨[0x20], List.all_eq_true.mp rfl⟩, .object,
      .more (.member Blank.empty [.raw 0x62 rfl] ⟨[0x20], List.all_eq_true.mp rfl⟩
          ⟨[0x20], List.all_eq_true.mp rfl⟩)
        (.container .array
          (.more (.element Blank.empty) (.literal trueLiteral (.boolean true) rfl) Blank.empty
            (.close Blank.empty)))
        Blank.empty
        (.last (.member Blank.empty [.escaped 0x22 0x22 rfl] Blank.empty Blank.empty)
          (.literal [0x31] (.number .one) rfl) Blank.empty)⟩
    ?_ .empty (some 2) ?_ [0x78]
  · refine ordered_object.mpr ⟨by decide, ?_⟩
    simp [Value.Ordered, Value.all_array, Value.OrderedNode]
  · exact ⟨_, _, ⟨_, _, rfl, ⟨_, ⟨_, _, rfl, rfl, rfl⟩, rfl⟩, _, _, rfl, rfl, rfl⟩,
      List.Perm.swap .., rfl⟩
  · rintro k ⟨⟩
    decide

/-! ## Repeated keys -/

theorem completed_unlimited {root : Container} {maxLevels : Option Nat} {w : Str}
    {res : ParseResult} {q : Parser}
    (h : parse cc (Parser.init root maxLevels) w = .returned res q) (hec : res.ec = .completed) :
    ∃ q', parse cc (Parser.init root none) w = .returned res q' := by
  cases maxLevels with
  | none => exact ⟨q, h⟩
  | some k =>
    have hwithin : (Parser.init root (some k)).Within k := ⟨rfl, trivial⟩
    rcases limit_scan cc (Parser.init root (some k)) w with hrun | ⟨u, ch, v, r, rfl, hu, hu', hE⟩
    · have hlim := parse_limited hwithin hrun
      obtain ⟨q', hq', -⟩ := limited_eq_returned (hlim.symm.trans h)
      exact ⟨q', hq'⟩
    · rw [(exceeds_at hwithin hu hu' hE v).1] at h
      cases h
      cases hec

/-- No run over the document completes, exactly if it repeats a key with a value that is not an
array. -/
theorem never_completes_iff (hlit : PlainLiterals cc lit) (d : Document lit) :
    (∀ root maxLevels u chunks res q, chunks.flatten = d.text ++ u →
      parseChunks cc (Parser.init root maxLevels) chunks = .returned res q →
      res.ec ≠ .completed) ↔ ∃ n ∈ d.raw.nodes, n.RepeatsNonArray := by
  have hroom : ∀ root, (Parser.init root none).Room d.raw.depth := fun root k hk => nomatch hk
  rw [← load_eq_none]
  constructor
  · intro h
    cases hload : d.raw.load with
    | none => rfl
    | some t =>
      obtain ⟨c, hc, rfl⟩ := Option.map_eq_some_iff.mp
        ((load_wrap d.kind d.items.entries).symm.trans hload)
      obtain ⟨q, hq, -⟩ := (parse_document hlit d (hroom .empty) []).1 c hload
      have hchunks : [d.text].flatten = d.text ++ [] := by simp
      refine absurd rfl
        (h .empty none [] [d.text] ⟨d.text.length, .completed, q.line, q.col⟩ q hchunks ?_)
      rw [parseChunks_eq_parse, hchunks]
      exact hq
  · intro hn root maxLevels u chunks res q hchunks hrun hec
    rw [parseChunks_eq_parse, hchunks] at hrun
    obtain ⟨q', hq'⟩ := completed_unlimited hrun hec
    obtain ⟨r, n, hr⟩ := (parse_document hlit d (hroom root) u).2 hn
    rw [hr] at hq'
    cases hq'
    cases hec

theorem exists_member_laysOut {ms ms' : List (Str × Value)} (h : MembersLayOut ms ms') {k : Str}
    {v : Value} (hmem : (k, v) ∈ ms) : ∃ v', (k, v') ∈ ms' ∧ v.LaysOut v' := by
  induction ms generalizing ms' with
  | nil => cases hmem
  | cons kv ms ih =>
    obtain ⟨v', rest, rfl, hv, hrest⟩ := h
    rcases List.mem_cons.mp hmem with heq | hmem
    · cases heq
      exact ⟨v', List.mem_cons_self .., hv⟩
    · obtain ⟨v'', hmem', hlay⟩ := ih hrest hmem
      exact ⟨v'', List.mem_cons_of_mem _ hmem', hlay⟩

theorem membersLayOut_keys {ms ms' : List (Str × Value)} (h : MembersLayOut ms ms') :
    ms'.map Prod.fst = ms.map Prod.fst := by
  induction ms generalizing ms' with
  | nil =>
    obtain rfl : ms' = [] := h
    rfl
  | cons kv ms ih =>
    obtain ⟨v', rest, rfl, -, hrest⟩ := h
    simp [ih hrest]

theorem loadMembers_isSome {k : Kind} {entries : List (Str × Value)}
    (h : (k.wrap entries).All fun n => ¬ n.RepeatsKey) :
    (loadMembers k.empty entries).isSome = true := by
  obtain ⟨t, hlay, hord⟩ := exists_laysOut _ h
  have hload := load_laysOut _ _ hlay hord
  rw [load_wrap] at hload
  obtain ⟨c, hc, -⟩ := Option.map_eq_some_iff.mp hload
  rw [hc]
  rfl

/-- At a position without earlier duplicates, the object under construction holds the trees of
the members read so far. -/
theorem reads_position (hlit : PlainLiterals cc lit) (pos : Position lit) (hfresh : pos.Fresh)
    (root : Container) (maxLevels : Option Nat) {d : Nat}
    (hroom : (Parser.init root maxLevels).Room (framesDepth d pos.frames)) :
    ∃ ms cs, SortedMap.Sorted ms ∧
      (∀ k, k ∈ ms.map Prod.fst ↔ k ∈ pos.done.map fun item => item.label.key) ∧
      (∀ item ∈ pos.done, ∃ t, (item.label.key, t) ∈ ms ∧ item.value.raw.LaysOut t) ∧
      (Parser.init root maxLevels).Room (cs.length + 1 + d) ∧
      ∀ u, Reads (strictStep cc) (Parser.init root maxLevels) pos.text
        ((Parser.init root maxLevels).enter .value (⟨pos.label.key, .object ms⟩ :: cs)) u := by
  have hload : ∀ f ∈ pos.frames, (loadMembers f.kind.empty f.entries).isSome = true :=
    fun f hf => loadMembers_isSome (hfresh f hf)
  unfold Position.Fresh at hfresh
  unfold Position.frames at hroom hload hfresh
  rw [framesDepth_append] at hroom
  -- the object under construction
  have hinner := hfresh ⟨.object, pos.done, pos.label⟩ (by simp)
  obtain ⟨t, hlay, hord⟩ := exists_laysOut _ hinner
  have hloaded := load_laysOut _ _ hlay hord
  obtain ⟨ms', ms, hms, hperm, rfl⟩ := hlay
  obtain ⟨hsorted, -⟩ := ordered_object.mp hord
  have hmembers : loadMembers (.object []) (pos.done.map Done.entry) = some (.object ms) := by
    obtain ⟨c, hc, hval⟩ := Option.map_eq_some_iff.mp hloaded
    cases c <;> cases hval
    exact hc
  have hkeys : (ms'.map Prod.fst) = pos.done.map fun item => item.label.key := by
    rw [membersLayOut_keys hms]
    simp [Frame.entries, Done.entry, Function.comp_def]
  -- the containers around it
  obtain ⟨cs, -, hroom', hreads⟩ := reads_frames hlit (p := Parser.init root maxLevels)
    (d := framesDepth d [⟨.object, pos.done, pos.label⟩]) pos.outer []
    (hroom.mono (by simp only [List.length_nil]; omega))
    fun f hf => hload f (List.mem_append_left _ hf)
  simp only [framesDepth, Frame.entries] at hroom'
  refine ⟨ms, cs, hsorted, fun k => ?_, fun item hitem => ?_, hroom'.mono (by omega), fun u => ?_⟩
  · rw [← hkeys]
    exact (hperm.map Prod.fst).mem_iff.symm
  · obtain ⟨t, hmem, ht⟩ := exists_member_laysOut hms (k := item.label.key) (v := item.value.raw)
      (List.mem_map.mpr ⟨item, hitem, rfl⟩)
    exact ⟨t, hperm.mem_iff.mp hmem, ht⟩
  · have htext : pos.text = pos.before.val ++ pos.outer.flatMap Frame.text ++
        Frame.text ⟨.object, pos.done, pos.label⟩ := by
      simp [Position.text, Position.frames]
    rw [htext]
    have hbefore : ∀ u, Reads (strictStep cc) (Parser.init root maxLevels) pos.before.val
        ((Parser.init root maxLevels).enter .value []) u :=
      reads_blank (p := Parser.init root maxLevels) (s := .value) rfl _ pos.before.property
    refine ((hbefore _).trans (hreads _)).trans ?_
    exact reads_frame hlit ⟨.object, pos.done, pos.label⟩ u
      (hroom'.mono (by simp only [Frame.entries]; omega)) hmembers

/-- The value `v` at the position ends the run with `keyAlreadyExists`, as soon as its end is seen.
The object under construction, then on top, still maps the key to the tree of the member that had
it first. -/
def RefusedAt (cc : CharConv) (pos : Position lit) (v : Cst lit) : Prop :=
  ∀ root maxLevels u, (∀ k, maxLevels = some k → framesDepth v.raw.depth pos.frames ≤ k) →
    (v.isLiteral = true → EndsValue u) →
    ∃ q, parse cc (Parser.init root maxLevels) (pos.text ++ v.text ++ u) =
        .returned ⟨pos.text.length + v.text.length + v.lag, .keyAlreadyExists, q.line, q.col⟩ q ∧
      ∃ top rest ms item first, q.contexts = top :: rest ∧ top.value = .object ms ∧
        item ∈ pos.done ∧ item.label.key = pos.label.key ∧ item.value.raw.LaysOut first ∧
        SortedMap.find pos.label.key ms = some first

theorem refusedAt_iff (hlit : PlainLiterals cc lit) {pos : Position lit} {v : Cst lit}
    (hfresh : pos.Fresh) (hv : v.raw.All fun n => ¬ n.RepeatsKey)
    (hkey : pos.label.key ∈ pos.done.map fun item => item.label.key) :
    RefusedAt cc pos v ↔ v.raw.isArray = false := by
  obtain ⟨t, hlay, hord⟩ := exists_laysOut _ hv
  have hload := load_laysOut _ _ hlay hord
  constructor
  · intro h
    -- an array is read past, here to the comma behind it
    by_contra harr
    obtain ⟨ms, cs, hsorted, hkeys, -, hroom, hreads⟩ := reads_position hlit pos hfresh
      .empty none (d := v.raw.depth) fun k hk => nomatch hk
    have hacc : (Container.object ms).accept pos.label.key t = some (.object ms) := by
      rcases accept_cases hsorted pos.label.key t with ⟨-, hacc⟩ | ⟨hfree, -⟩
      · rw [hacc, load_isArray hload, if_pos (by simpa using harr)]
      · exact absurd ((hkeys _).mpr hkey) hfree
    have hcomma : EndsValue [Delimiters.valueSeparator] := endsValue_cons endsLiteral_comma []
    have hvalue := runs_value hlit v pos.label.key (.object ms) cs hcomma
      hroom
    rw [hload, Option.bind_some, hacc] at hvalue
    have hmore : scan (strictStep cc) (Parser.init .empty none)
        (pos.text ++ v.text ++ [Delimiters.valueSeparator]) =
          .more ((Parser.init .empty none).enter .beforeKey (⟨[], .object ms⟩ :: cs)) := by
      have hread : Reads (strictStep cc) (Parser.init .empty none) (pos.text ++ v.text)
          ((Parser.init .empty none).enter Kind.object.afterItem (⟨[], .object ms⟩ :: cs))
          [Delimiters.valueSeparator] := (hreads _).trans hvalue
      rw [hread, scan_cons_ok [] (eat_comma .object)]
      rfl
    obtain ⟨r, hr⟩ := parse_of_strict_more hmore
    obtain ⟨q, hq, -⟩ := h .empty none [Delimiters.valueSeparator] (fun k hk => nomatch hk)
      fun _ => hcomma
    rw [hr] at hq
    have hec : ParserErrorCode.moreDataNeeded = .keyAlreadyExists :=
      congrArg ParseResult.ec (Outcome.returned.inj hq).1
    cases hec
  · intro harr root maxLevels u hmax hu
    obtain ⟨ms, cs, hsorted, hkeys, hfirst, hroom, hreads⟩ := reads_position hlit pos hfresh
      root maxLevels hmax
    have hacc : (Container.object ms).accept pos.label.key t = none := by
      rcases accept_cases hsorted pos.label.key t with ⟨-, hacc⟩ | ⟨hfree, -⟩
      · rw [hacc, load_isArray hload, if_neg (by simp [harr])]
      · exact absurd ((hkeys _).mpr hkey) hfree
    obtain ⟨q, hstop, hctx⟩ := refused_value hlit v hload hacc hu hroom
    have hrun : scan (strictStep cc) (Parser.init root maxLevels) (pos.text ++ v.text ++ u) =
        .stopped q (some .keyAlreadyExists) (pos.text.length + v.text.length + v.lag) := by
      rw [List.append_assoc, hreads, hstop, Result.after_stopped, Nat.add_assoc]
    obtain ⟨r, hr, hcore⟩ := parse_of_strict hrun (nomatch ·)
    obtain ⟨item, hitem, hitemKey⟩ := List.mem_map.mp hkey
    obtain ⟨first, hmem, hfirstLay⟩ := hfirst item hitem
    refine ⟨r, hr, ⟨[], .object ms⟩, cs, ms, item, first, ?_, rfl, hitem, hitemKey, hfirstLay, ?_⟩
    · rw [← hctx, ← hcore]
      rfl
    · rw [← hitemKey]
      exact (SortedMap.find_eq_some hsorted).mpr hmem

end Jopp
