import Jopp.RoundTrip
import Jopp.Parser.Nesting

/-!
# Jopp.Transfer

Texts that are passed on, from a serializer to a parser and one after another in one input.

* `Container.Portable`: the trees that come back from their text.
* `received_iff`: a parser completes when the serializer that feeds it does.
* `parseStream`: a caller that reads one document after another, with a new parser for each.
  `stream_roundTrip`: it finds every tree that was written. `texts_decodable`: texts one after
  another tell the trees apart.
-/

namespace Jopp

open Resumable

variable {cc : CharConv}

/-- Trees that come back from their text. -/
structure Container.Portable (t : Container) : Prop where
  ordered : t.Ordered
  escapable : (toValue t).AllStrings Escapable
  numbers : (toValue t).NumbersOnly
  keys : (toValue t).KeysNonEmpty

/-- The text of a tree ends with a newline, and is a document that completes a parser without it,
whatever comes next. -/
theorem text_parse (hcc : cc.RoundTrips) {t : Container} (ht : t.Portable) (pretty : Bool) :
    ∃ d : Str, t.text cc pretty = d ++ [newline] ∧
      ∀ (root : Container) (maxLevels : Option Nat), Allows maxLevels t.depth →
        ∀ (gap : Blank) (u : Str), ∃ q,
          parse cc (Parser.init root maxLevels) (gap.val ++ d ++ u) =
            .returned ⟨gap.val.length + d.length, .completed, q.line, q.col⟩ q ∧ q.root = t := by
  obtain ⟨d, htext, hraw⟩ := written_document hcc pretty ht.escapable ht.numbers ht.keys
  refine ⟨d.text, htext, fun root maxLevels hlimit gap u => ?_⟩
  have hblank : ∀ ch ∈ gap.val ++ d.before.val, isWhitespace ch = true := fun ch hch =>
    (List.mem_append.mp hch).elim (gap.property ch) (d.before.property ch)
  have hload : d.raw.load = some (toValue t) := by
    rw [hraw]
    exact load_laysOut _ _ (laysOut_refl _) ht.ordered
  have hroom : (Parser.init root maxLevels).Room d.raw.depth := by
    rw [hraw]
    exact hlimit
  obtain ⟨q, hq, hroot⟩ :=
    (parse_document spelled_plain ⟨⟨_, hblank⟩, d.kind, d.items⟩ hroom u).1 t hload
  have hshift : (⟨⟨_, hblank⟩, d.kind, d.items⟩ : Document (Spelled cc)).text =
      gap.val ++ d.text := by
    simp [Document.text]
  rw [hshift] at hq
  refine ⟨q, ?_, hroot⟩
  rw [hq, List.length_append]

theorem parse_append {p q : Parser} {u : Str} {res : ParseResult}
    (h : parse cc p u = .returned res q) (hec : res.ec ≠ .moreDataNeeded) (v : Str) :
    parse cc p (u ++ v) = .returned res q := by
  rcases returned_cases h with ⟨-, hres⟩ | ⟨hstop, -⟩
  · rw [hres] at hec
    exact absurd rfl hec
  · rw [parse_of_stopped (scan_append_stopped hstop v), ← parse_of_stopped hstop, h]

theorem Completes.append {maxLevels : Option Nat} {c : Container}
    {w : Str} (h : Completes cc maxLevels w c) (v : Str) : Completes cc maxLevels (w ++ v) c := by
  obtain ⟨res, q, hrun, hec, hroot⟩ := h
  exact ⟨res, q, parse_append hrun (by rw [hec]; decide) v, hec, hroot⟩

/-- Where a tree has an empty key no parser completes on its text. -/
theorem emptyKey_not_completed (hcc : cc.RoundTrips) {t : Container} (ht : t.Ordered)
    (hesc : (toValue t).AllStrings Escapable) (hnum : (toValue t).NumbersOnly)
    (hkeys : ¬ (toValue t).KeysNonEmpty) {pretty : Bool} {root : Container} {res : ParseResult}
    {q : Parser} (h : parse cc (Parser.init root none) (t.text cc pretty) = .returned res q) :
    res.ec ≠ .completed := by
  have htext : t.text cc pretty = (toValue t).text cc pretty 0 ++ [] := by
    rw [List.append_nil, text_toValue]
    rfl
  have hfails : Fails cc (Parser.init root none) (t.text cc pretty) := by
    rw [htext]
    exact container_fails (p := Parser.init root none) hcc rfl (fun item _ => value_fails hcc rfl
      item.value) ht hesc hnum hkeys 0 [] []
  obtain ⟨res', q', hrun, hec⟩ := hfails.parse
  rw [h] at hrun
  cases hrun
  exact hec

/-- A text that is complete, its last byte perhaps excepted. A parser completes on it unless the
tree has an empty key, or is too deep, and with no other tree. -/
theorem completes_text (hcc : cc.RoundTrips) {t : Container} (ht : t.Ordered)
    (hesc : (toValue t).AllStrings Escapable) (hnum : (toValue t).NumbersOnly) {pretty : Bool}
    {w rest : Str} (htext : w ++ rest = t.text cc pretty) (hrest : rest.length ≤ 1)
    (maxLevels : Option Nat) (c : Container) :
    Completes cc maxLevels w c ↔
      (toValue t).KeysNonEmpty ∧ Allows maxLevels t.depth ∧ c = t := by
  constructor
  · intro h
    obtain ⟨res, q, hrun, hec, hroot⟩ := h.unlimited
    have hwhole : parse cc (Parser.init .empty none) (t.text cc pretty) = .returned res q := by
      rw [← htext]
      exact parse_append hrun (by rw [hec]; decide) rest
    have hkeys : (toValue t).KeysNonEmpty := by
      by_contra hkeys
      exact emptyKey_not_completed hcc ht hesc hnum hkeys hwhole hec
    obtain ⟨d, hd, hparse⟩ := text_parse hcc ⟨ht, hesc, hnum, hkeys⟩ pretty
    obtain ⟨q', hq', hroot'⟩ := hparse .empty none (fun k hk => nomatch hk) Blank.empty [newline]
    have hsame : (Blank.empty.val ++ d ++ [newline] : Str) = t.text cc pretty := hd.symm
    rw [hsame, hwhole] at hq'
    cases hq'
    obtain rfl : c = t := hroot.symm.trans hroot'
    exact ⟨hkeys, h.depth, rfl⟩
  · rintro ⟨hkeys, hlimit, rfl⟩
    obtain ⟨d, hd, hparse⟩ := text_parse hcc ⟨ht, hesc, hnum, hkeys⟩ pretty
    have hlen : d.length ≤ w.length := by
      have := congrArg List.length (htext.trans hd)
      simp only [List.length_append, List.length_singleton] at this
      omega
    obtain ⟨u, rfl⟩ : d <+: w :=
      List.prefix_of_prefix_length_le ⟨[newline], hd.symm⟩ ⟨rest, htext⟩ hlen
    obtain ⟨q, hq, hroot⟩ := hparse .empty maxLevels hlimit Blank.empty u
    exact ⟨_, q, hq, rfl, hroot⟩

/-- A text that is cut before the end of a document. -/
theorem parse_cut {p q : Parser} {u v : Str} {res : ParseResult}
    (h : parse cc p (u ++ v) = .returned res q) (hlt : u.length < res.ptr) :
    ∃ q', parse cc p u = .returned ⟨u.length, .moreDataNeeded, q'.line, q'.col⟩ q' := by
  cases hrun : scan (step cc) p u with
  | more q' => exact ⟨q', parse_of_more hrun⟩
  | stopped q' e n =>
    have hle := (scan_stopped_take hrun []).1
    rw [parse_eq_scan, scan_append_stopped hrun v] at h
    cases e with
    | none => cases h
    | some ec =>
      cases h
      exact absurd hlt (Nat.not_lt.mpr hle)

/-! ## From a serializer to a parser -/

theorem serializeAll_cut {t : Container} (hesc : (toValue t).AllStrings Escapable) {pretty : Bool}
    {caps : List Nat} {w : Str} {ec : SerializerErrorCode} {s : Serializer}
    (h : serializeAll cc (Serializer.init t pretty) caps = .returned w ec s) :
    ∃ m, w = (t.text cc pretty).take m ∧
      (ec = .completed ↔ (t.text cc pretty).length < m + if pretty then 3 else 2) := by
  have hnone : none ∉ t.tokens cc pretty 0 := by
    rw [none_mem_container_tokens, offends_iff, not_not]
    exact hesc
  have hlen := text_length cc pretty fun ho => (offends_iff t).mp ho hesc
  obtain ⟨s', hrun⟩ := run_drive cc t pretty caps
  rcases Drain.drive_cases (t.openText pretty) (t.tokens cc pretty 0) caps with
    ⟨hd, hle⟩ | ⟨-, k, ⟨hlt, -⟩, hd⟩ | ⟨hyes, -⟩
  · rw [hd, h] at hrun
    cases hrun
    exact ⟨caps.sum, rfl, nofun, fun hlong => absurd hlong (by omega)⟩
  · rw [hd, h] at hrun
    cases hrun
    exact ⟨_, rfl, fun _ => by omega, fun _ => rfl⟩
  · exact absurd hyes hnone

/-- **What is received.** A parser that is given what a serializer has written, in any pieces, asks
for more or completes with the tree. It completes exactly if the serializer has, and the last
buffer has not cut off more than the newline at the end, which can only happen when printing
prettily. -/
theorem received_iff (cc : CharConv) (hcc : cc.RoundTrips) (t : Container) (ht : t.Portable)
    (pretty : Bool) (root : Container) (maxLevels : Option Nat) (hlimit : Allows maxLevels t.depth)
    (caps : List Nat) (w : Str) (ec : SerializerErrorCode) (s : Serializer)
    (h : serializeAll cc (Serializer.init t pretty) caps = .returned w ec s) (chunks : List Str)
    (hchunks : chunks.flatten = w) :
    ∃ res q, parseChunks cc (Parser.init root maxLevels) chunks = .returned res q ∧
      (res.ec = .completed ∧ q.root = t ∨ res.ec = .moreDataNeeded) ∧
      (res.ec = .completed ↔ ec = .completed ∧ (t.text cc pretty).length ≤ w.length + 1) ∧
      (pretty = false → (res.ec = .completed ↔ ec = .completed)) := by
  obtain ⟨m, hw, hec⟩ := serializeAll_cut ht.escapable h
  obtain ⟨d, htext, hparse⟩ := text_parse hcc ht pretty
  have hlen : (t.text cc pretty).length = d.length + 1 := by
    rw [htext, List.length_append, List.length_singleton]
  have hpos : 2 ≤ if pretty then 3 else 2 := by cases pretty <;> decide
  rw [parseChunks_eq_parse, hchunks]
  by_cases hm : d.length ≤ m
  · -- the closing delimiter is there
    have hsplit : w = d ++ [newline].take (m - d.length) := by
      rw [hw, htext, List.take_append, List.take_of_length_le hm]
    obtain ⟨q, hq, hroot⟩ :=
      hparse root maxLevels hlimit Blank.empty ([newline].take (m - d.length))
    have hdone : ec = .completed := hec.mpr (by omega)
    have hlong : (t.text cc pretty).length ≤ w.length + 1 := by
      rw [hlen, hsplit, List.length_append]
      omega
    have hrun : parse cc (Parser.init root maxLevels) w =
        .returned ⟨Blank.empty.val.length + d.length, .completed, q.line, q.col⟩ q := by
      rw [hsplit]
      exact hq
    exact ⟨_, q, hrun, .inl ⟨rfl, hroot⟩, iff_of_true rfl ⟨hdone, hlong⟩,
      fun _ => iff_of_true rfl hdone⟩
  · have hcut : w ++ (d.drop m ++ []) = d := by
      rw [hw, htext, List.take_append_of_le_length (by omega), List.append_nil,
        List.take_append_drop]
    have hshort : w.length = m := by
      rw [hw, List.length_take]
      omega
    obtain ⟨q, hq, -⟩ := hparse root maxLevels hlimit Blank.empty []
    have hwhole : parse cc (Parser.init root maxLevels) (w ++ (d.drop m ++ [])) =
        .returned ⟨d.length, .completed, q.line, q.col⟩ q := by
      rw [hcut]
      simpa [Blank.empty] using hq
    obtain ⟨q', hq'⟩ := parse_cut hwhole (by simp only; omega)
    have hmore : ParserErrorCode.moreDataNeeded ≠ .completed := by decide
    refine ⟨_, q', hq', .inr rfl, iff_of_false hmore fun hdone => ?_, fun hp => ?_⟩
    · omega
    · subst hp
      refine iff_of_false hmore fun hdone => ?_
      have := hec.mp hdone
      simp only [Bool.false_eq_true, if_false] at this
      omega

/-- `[1]`, printed prettily into buffers of three and two bytes: the serializer completes with the
newline before the `]`. -/
theorem received_iff_cut :
    ∃ s, serializeAll .binary (Serializer.init (.array [.number .one]) true) [3, 2] =
        .returned [0x5b, 0x0a, 0x09, 0x31, 0x0a] .completed s ∧
      ∃ res q, parseChunks .binary (Parser.init .empty none) [[0x5b, 0x0a, 0x09], [0x31, 0x0a]] =
        .returned res q ∧ res.ec = .moreDataNeeded := by
  have hrun : ∃ s, serializeAll .binary (Serializer.init (.array [.number .one]) true) [3, 2] =
      .returned [0x5b, 0x0a, 0x09, 0x31, 0x0a] .completed s := ⟨_, rfl⟩
  obtain ⟨s, hs⟩ := hrun
  obtain ⟨res, q, hq, hcodes, hiff, -⟩ := received_iff .binary binary_roundTrips
    (.array [.number .one]) ⟨by decide, by decide, by decide, by decide⟩ true .empty none
    (fun k hk => nomatch hk) [3, 2] _ _ s hs [[0x5b, 0x0a, 0x09], [0x31, 0x0a]] rfl
  refine ⟨s, hs, res, q, hq, hcodes.resolve_left fun hdone => ?_⟩
  exact absurd (hiff.mp hdone.1).2 (by decide)

/-! ## Documents one after another -/

def parseStream (cc : CharConv) (maxLevels : Option Nat) : Nat → Str → List Container × Str
  | 0, w => ([], w)
  | n + 1, w =>
    match parse cc (Parser.init .empty maxLevels) w with
    | .returned res parser =>
      if res.ec = .completed then
        let rest := parseStream cc maxLevels n (w.drop res.ptr)
        (parser.root :: rest.1, rest.2)
      else ([], w)
    | _ => ([], w)

/-- The texts of trees, each printed prettily or not. -/
def texts (cc : CharConv) (docs : List (Container × Bool)) : Str :=
  docs.flatMap fun doc => doc.1.text cc doc.2

theorem texts_cons (doc : Container × Bool) (docs : List (Container × Bool)) :
    texts cc (doc :: docs) = doc.1.text cc doc.2 ++ texts cc docs := rfl

theorem parseStream_texts (hcc : cc.RoundTrips) {maxLevels : Option Nat}
    {docs : List (Container × Bool)} (hdocs : ∀ doc ∈ docs, doc.1.Portable)
    (hlimit : ∀ doc ∈ docs, Allows maxLevels doc.1.depth) (gap : Blank) (n : Nat) (u : Str) :
    parseStream cc maxLevels (docs.length + n) (gap.val ++ texts cc docs ++ u) =
      let rest := parseStream cc maxLevels n ((if docs = [] then gap.val else [newline]) ++ u)
      (docs.map Prod.fst ++ rest.1, rest.2) := by
  induction docs generalizing gap with
  | nil => simp [texts]
  | cons doc docs ih =>
    rw [List.forall_mem_cons] at hdocs hlimit
    obtain ⟨d, htext, hparse⟩ := text_parse hcc hdocs.1 doc.2
    have hsplit : gap.val ++ texts cc (doc :: docs) ++ u =
        gap.val ++ d ++ ([newline] ++ texts cc docs ++ u) := by
      rw [texts_cons, htext]
      simp
    obtain ⟨q, hq, hroot⟩ := hparse .empty maxLevels hlimit.1 gap ([newline] ++ texts cc docs ++ u)
    have hrest : (gap.val ++ d ++ ([newline] ++ texts cc docs ++ u)).drop
        (gap.val.length + d.length) = [newline] ++ texts cc docs ++ u := by
      rw [← List.length_append, List.drop_left]
    have hnewline : ∀ ch ∈ [newline], isWhitespace ch = true := List.forall_mem_singleton.mpr rfl
    have hih := ih hdocs.2 hlimit.2 ⟨[newline], hnewline⟩
    rw [hsplit, List.length_cons, Nat.add_right_comm]
    simp only [parseStream, hq, if_true, hrest, hih, hroot]
    by_cases hnil : docs = [] <;> simp [hnil]

/-- **A stream of documents.** Reading one document after another gives back the trees that were
written, in order, and leaves what comes behind them. -/
theorem stream_roundTrip (cc : CharConv) (hcc : cc.RoundTrips) (maxLevels : Option Nat)
    (docs : List (Container × Bool)) (hdocs : ∀ doc ∈ docs, doc.1.Portable)
    (hlimit : ∀ doc ∈ docs, Allows maxLevels doc.1.depth) (u : Str) :
    parseStream cc maxLevels docs.length (texts cc docs ++ u) =
      (docs.map Prod.fst, (if docs = [] then [] else [newline]) ++ u) := by
  have hrun := parseStream_texts hcc hdocs hlimit Blank.empty 0 u
  simpa [Blank.empty, parseStream] using hrun

/-- `{"a":1}` and `[]`, the first printed prettily, with `x` behind them. -/
theorem stream_roundTrip_two :
    parseStream .binary (some 1) 2
        (texts .binary [(.object [([0x61], .number .one)], true), (.array [], false)] ++ [0x78]) =
      ([.object [([0x61], .number .one)], .array []], [newline, 0x78]) :=
  stream_roundTrip .binary binary_roundTrips (some 1)
    [(.object [([0x61], .number .one)], true), (.array [], false)]
    (List.forall_mem_cons.mpr ⟨⟨by decide, by decide, by decide, by decide⟩,
      List.forall_mem_singleton.mpr ⟨by decide, by decide, by decide, by decide⟩⟩)
    (List.forall_mem_cons.mpr ⟨fun k hk => by cases hk; decide,
      List.forall_mem_singleton.mpr fun k hk => by cases hk; decide⟩) [0x78]

theorem parseStream_blank (cc : CharConv) {w : Str} (hw : w = [] ∨ w = [newline]) (n : Nat) :
    parseStream cc none n w = ([], w) := by
  cases n with
  | zero => rfl
  | succ n => rcases hw with rfl | rfl <;> rfl

theorem texts_decodable_of_le (hcc : cc.RoundTrips) {docs docs' : List (Container × Bool)}
    (hdocs : ∀ doc ∈ docs, doc.1.Portable) (hdocs' : ∀ doc ∈ docs', doc.1.Portable)
    (htexts : texts cc docs = texts cc docs') (hle : docs.length ≤ docs'.length) :
    docs.map Prod.fst = docs'.map Prod.fst := by
  have hlimit : ∀ docs : List (Container × Bool), ∀ doc ∈ docs, Allows none doc.1.depth :=
    fun _ _ _ _ hk => nomatch hk
  obtain ⟨n, hn⟩ := Nat.exists_eq_add_of_le hle
  have hlast : (if docs = [] then Blank.empty.val else [newline]) ++ [] = [] ∨
      (if docs = [] then Blank.empty.val else [newline]) ++ [] = [newline] := by
    by_cases hnil : docs = [] <;> simp [hnil, Blank.empty]
  have hrun := parseStream_texts hcc hdocs (hlimit docs) Blank.empty n []
  have hrun' := parseStream_texts hcc hdocs' (hlimit docs') Blank.empty 0 []
  rw [parseStream_blank cc hlast, htexts, ← hn] at hrun
  rw [Nat.add_zero, hrun] at hrun'
  simpa [parseStream] using congrArg Prod.fst hrun'

/-- **Texts one after another** tell apart the trees they are of, with any printing. -/
theorem texts_decodable (cc : CharConv) (hcc : cc.RoundTrips) (docs docs' : List (Container × Bool))
    (hdocs : ∀ doc ∈ docs, doc.1.Portable) (hdocs' : ∀ doc ∈ docs', doc.1.Portable)
    (htexts : texts cc docs = texts cc docs') : docs.map Prod.fst = docs'.map Prod.fst := by
  rcases Nat.le_total docs.length docs'.length with hle | hle
  · exact texts_decodable_of_le hcc hdocs hdocs' htexts hle
  · exact (texts_decodable_of_le hcc hdocs' hdocs htexts.symm hle).symm

/-- The text of `[1]` and `{}`, the second printed prettily, is met by these two. -/
theorem texts_decodable_two :
    [(.array [.number .one], false), (.object [], true)].map Prod.fst =
      [(.array [.number .one], false), (.object [], true)].map (Prod.fst : _ → Container) := by
  have hdocs : ∀ doc ∈ [(Container.array [.number .one], false), (.object [], true)],
      doc.1.Portable :=
    List.forall_mem_cons.mpr ⟨⟨by decide, by decide, by decide, by decide⟩,
      List.forall_mem_singleton.mpr ⟨by decide, by decide, by decide, by decide⟩⟩
  exact texts_decodable .binary binary_roundTrips _ _ hdocs hdocs rfl

end Jopp
