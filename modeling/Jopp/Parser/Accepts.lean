import Jopp.Parser.Sound

/-!
# Jopp.Parser.Accepts

When the bytes a completing run has consumed are a document. The state of the strict machine agrees
with what the quotes, backslashes and colons of the text say, no grammar being involved
(`strict_agrees`). The parser strays from the grammar exactly where a `]` comes where the value of
a member is due.

* `document_iff`: what a completing run has consumed.
* `parseChunks_defined_iff`: when every other input is reported.
* `duplicate_iff`: what becomes of repeated keys.
-/

namespace Jopp

open Resumable

/-- No `]` comes where the value of a member is due. -/
def MembersHaveValues (w : Str) : Prop :=
  ∀ u v, w = u ++ Delimiters.endArray :: v → placeAfter u ≠ .afterColon

theorem membersHaveValues_iff {w : Str} :
    MembersHaveValues w ↔ ∀ n < w.length,
      w[n]? = some Delimiters.endArray → placeAfter (w.take n) ≠ .afterColon := by
  constructor
  · intro h n hn hch
    have hget : w[n] = Delimiters.endArray := by
      rw [List.getElem?_eq_getElem hn] at hch
      exact Option.some.inj hch
    refine h (w.take n) (w.drop (n + 1)) ?_
    rw [← hget, List.getElem_cons_drop, List.take_append_drop]
  · rintro h u v rfl
    have := h u.length (by simp) (by simp)
    rwa [List.take_left] at this

instance (w : Str) : Decidable (MembersHaveValues w) := decidable_of_iff' _ membersHaveValues_iff

/-! ## The place and the state -/

/-- What the state says about the place. A literal may hold any bytes before it is looked at. -/
def Parser.Agrees (p : Parser) (place : Place) : Prop :=
  match p.currentState with
  | .value =>
    (place = .outside ∧ (p.contexts = [] ∨ p.inArray = true)) ∨
      (place = .afterColon ∧ p.inArray = false)
  | .literal => (∀ ch ∈ p.buffer, isPlain ch = true) → place = .outside
  | .stringValue | .key => place = .inString
  | .stringValueEscSeq | .keyEscSeq => place = .afterBackslash
  | .beforeKey | .beforeValue | .afterValueObject | .afterValueArray => place = .outside

section

variable {cc : CharConv} {p q : Parser} {ch : Byte} {place : Place}

theorem next_plain (h : isPlain ch = true) (hplace : place = .outside ∨ place = .afterColon) :
    place.next ch = .outside := by
  obtain ⟨hw, -, -, -, -, -, hq⟩ := plain_ne h
  have hc : ch ≠ Delimiters.nameSeparator := by
    rintro rfl
    cases h
  rcases hplace with rfl | rfl <;> simp [Place.next, hw, hq, hc]

theorem agrees_value (hs : p.currentState = .value) :
    p.Agrees place ↔ (place = .outside ∧ (p.contexts = [] ∨ p.inArray = true)) ∨
      (place = .afterColon ∧ p.inArray = false) := by
  unfold Parser.Agrees
  rw [hs]

theorem agrees_literal (hs : p.currentState = .literal) :
    p.Agrees place ↔ ((∀ ch ∈ p.buffer, isPlain ch = true) → place = .outside) := by
  unfold Parser.Agrees
  rw [hs]

theorem agrees_quoted {s escState : ParserState} (hs : Quoted s escState) :
    (p.currentState = s → (p.Agrees place ↔ place = .inString)) ∧
      (p.currentState = escState → (p.Agrees place ↔ place = .afterBackslash)) := by
  cases hs <;>
  · refine ⟨fun h => ?_, fun h => ?_⟩ <;>
    · unfold Parser.Agrees
      rw [h]

theorem agrees_between (hs : p.currentState.skipsBlanks = true) (hv : p.currentState ≠ .value) :
    p.Agrees place ↔ place = .outside := by
  unfold Parser.Agrees
  generalize p.currentState = s at hs hv
  cases s with
  | value => exact absurd rfl hv
  | literal | stringValue | stringValueEscSeq | key | keyEscSeq => cases hs
  | beforeKey | beforeValue | afterValueObject | afterValueArray => exact Iff.rfl

theorem agrees_stored (top : ParserContext) (val : Value)
    (hs : q.currentState = (storeValue top val).2.nextState) :
    q.Agrees place ↔ place = .outside := by
  rw [(storeValue_nextState top val).1] at hs
  refine agrees_between ?_ ?_
  · rw [hs]
    exact skipsBlanks_afterItem _
  · rw [hs]
    exact afterItem_ne_value _

def Flow.Agrees (place : Place) (ch : Byte) : Flow → Prop
  | .brk q => q.Agrees (place.next ch)
  | .brkBack q => q.Agrees place
  | .ret _ _ | .undefined => True

theorem branch_agrees (hcc : cc.Plain) (hcons : p.Consistent) (hm : ¬ Misplaced p ch)
    (ha : p.Agrees place) {flow : Flow} (hb : Branch cc p ch flow) : flow.Agrees place ch := by
  have hliteral : ∀ {val : Value}, p.currentState = .literal → makeValue cc p.buffer = some val →
      place = .outside := fun hs hv =>
    (agrees_literal hs).mp ha (literal_plain hcc _ _ hv).2.2
  cases hb with
  | blank hs hch =>
    show p.Agrees (place.next ch)
    have hplace : place = .outside ∨ place = .afterColon := by
      by_cases hv : p.currentState = .value
      · rcases (agrees_value hv).mp ha with ⟨h, -⟩ | ⟨h, -⟩
        · exact .inl h
        · exact .inr h
      · exact .inl ((agrees_between hs hv).mp ha)
    rwa [next_blank hch hplace]
  | openArray hs hch hd =>
    subst hch
    rcases (agrees_value hs).mp ha with ⟨rfl, -⟩ | ⟨rfl, -⟩ <;> exact .inl ⟨rfl, .inr rfl⟩
  | openObject hs hch hd =>
    subst hch
    rcases (agrees_value hs).mp ha with ⟨rfl, -⟩ | ⟨rfl, -⟩ <;> rfl
  | endInValue hs hch =>
    show place = .outside
    rcases (agrees_value hs).mp ha with ⟨h, -⟩ | ⟨-, harr⟩
    · exact h
    · exact absurd ⟨hs, harr, hch⟩ hm
  | openString hs hch hc =>
    subst hch
    rcases (agrees_value hs).mp ha with ⟨rfl, -⟩ | ⟨rfl, -⟩ <;> rfl
  | openLiteral hs hch ha' ho he hq hc =>
    intro hplain
    have hp : isPlain ch = true := hplain ch (by simp)
    rcases (agrees_value hs).mp ha with ⟨rfl, -⟩ | ⟨rfl, -⟩
    · exact next_plain hp (.inl rfl)
    · exact next_plain hp (.inr rfl)
  | literalChar hs hch =>
    refine (agrees_literal (p := { p with buffer := p.buffer ++ [ch] }) hs).mpr fun hplain => ?_
    have hp : isPlain ch = true := hplain ch (by simp)
    have hplace := (agrees_literal hs).mp ha fun b hb => hplain b (List.mem_append_left _ hb)
    exact next_plain hp (.inl hplace)
  | literalBlank hs hch hc hv hr =>
    rename_i top rest val
    obtain rfl := hliteral hs hv
    show Parser.Agrees _ _
    exact (agrees_stored top val rfl).mpr (next_blank hch (.inl rfl))
  | literalBack hs hch hw hc hv hr =>
    rename_i top rest val
    show Parser.Agrees _ _
    exact (agrees_stored top val rfl).mpr (hliteral hs hv)
  | rawChar hs hch =>
    obtain rfl := ((agrees_quoted hs).1 rfl).mp ha
    exact ((agrees_quoted (p := { p with buffer := p.buffer ++ [ch] }) hs).1 rfl).mpr
      (next_raw hch)
  | beginEsc hs hch =>
    subst hch
    obtain rfl := ((agrees_quoted hs).1 rfl).mp ha
    exact ((agrees_quoted hs).2 rfl).mpr rfl
  | escChar hs hch =>
    obtain rfl := ((agrees_quoted hs).2 rfl).mp ha
    exact ((agrees_quoted hs).1 rfl).mpr rfl
  | closeString hs hch hc hr =>
    subst hch
    rename_i top rest
    obtain rfl : place = .inString := ((agrees_quoted .stringValue).1 hs).mp ha
    show Parser.Agrees _ _
    exact (agrees_stored top (.string p.buffer) rfl).mpr rfl
  | openKey hs hch =>
    subst hch
    obtain rfl := (agrees_between (by rw [hs]; rfl) (by rw [hs]; decide)).mp ha
    rfl
  | endInBeforeKey hs hch => exact (agrees_between (by rw [hs]; rfl) (by rw [hs]; decide)).mp ha
  | closeKey hs hch hc =>
    subst hch
    obtain rfl : place = .inString := ((agrees_quoted .key).1 hs).mp ha
    rfl
  | colon hs hch =>
    subst hch
    obtain rfl := (agrees_between (by rw [hs]; rfl) (by rw [hs]; decide)).mp ha
    refine .inr ⟨rfl, ?_⟩
    -- the colon is read in an object
    have hstack := hcons.stack
    by_cases hc : p.contexts = []
    · simp [Parser.inArray, hc]
    · obtain ⟨top, rest, hc⟩ := List.exists_cons_of_ne_nil hc
      rw [kinds_cons hc, hs] at hstack
      simp [Parser.inArray, hc, hstack.1 rfl]
  | commaObject hs hch =>
    subst hch
    obtain rfl := (agrees_between (by rw [hs]; rfl) (by rw [hs]; decide)).mp ha
    rfl
  | commaArray hs hch =>
    subst hch
    obtain rfl := (agrees_between (by rw [hs]; rfl) (by rw [hs]; decide)).mp ha
    refine .inl ⟨rfl, ?_⟩
    have hstack := hcons.stack
    by_cases hc : p.contexts = []
    · exact .inl hc
    · obtain ⟨top, rest, hc⟩ := List.exists_cons_of_ne_nil hc
      rw [kinds_cons hc, hs] at hstack
      exact .inr (by simp [Parser.inArray, hc, hstack.2 rfl])
  | closeContainer hs hc hr =>
    rename_i current top rest
    obtain rfl := (agrees_between hs.skipsBlanks hs.ne_value).mp ha
    refine (agrees_stored top (toValue current.value) rfl).mpr ?_
    generalize p.currentState = s at hs
    cases hs <;> rfl
  | tooDeep | leafAtTop | literalInvalid | literalRefused | literalEmpty | rawIllegal | escIllegal
  | stringRefused | stringEmpty | keyEmpty | illegal | closeRoot | closeRefused | closeEmpty =>
    trivial

theorem pass_agrees (hcc : cc.Plain) (hcons : p.Consistent) (hm : ¬ Misplaced p ch)
    (ha : p.Agrees place) {flow : Flow} (h : pass cc p ch = flow) : flow.Agrees place ch :=
  h ▸ branch_agrees hcc hcons hm ha (pass_branch cc p ch)

theorem strict_agrees (hcc : cc.Plain) {root : Container} {maxLevels : Option Nat} {w : Str}
    (h : scan (strictStep cc) (Parser.init root maxLevels) w = .more q) :
    q.Agrees (placeAfter w) := by
  refine (scan_foldl_inv (I := fun q place => q.Consistent ∧ q.Agrees place) (g := Place.next)
    (strictStep_settles cc) (fun p ch place q hp hstep => ?_) (fun p ch place q hp hstep => ?_)
    ⟨⟨matches_value _, fun _ => rfl⟩, .inl ⟨rfl, .inl rfl⟩⟩ h).2
  · obtain ⟨hm, hpass⟩ := strictStep_next hstep
    exact ⟨(pass_carries hp.1 hm hpass).1, pass_agrees hcc hp.1 hm hp.2 hpass⟩
  · obtain ⟨hm, hpass⟩ := strictStep_back hstep
    exact ⟨(pass_carries hp.1 hm hpass).1, pass_agrees hcc hp.1 hm hp.2 hpass⟩

end

/-! ## Whole runs -/

section

variable {cc : CharConv} {lit : Str → Value → Prop} {q : Parser}

theorem strict_refuses (hcc : cc.Plain) {root : Container} {maxLevels : Option Nat} {u : Str}
    (h : scan (strictStep cc) (Parser.init root maxLevels) u = .more q)
    (hplace : placeAfter u = .afterColon) :
    ∃ r ec, eat (strictStep cc) q Delimiters.endArray = .error (r, ec) ∧ ec ≠ some .completed := by
  have ha := strict_agrees hcc h
  rw [hplace] at ha
  cases hs : q.currentState with
  | value =>
    rcases (agrees_value hs).mp ha with ⟨h, -⟩ | ⟨-, harr⟩
    · cases h
    · exact ⟨q, _, eat_stop (if_pos ⟨hs, harr, rfl⟩), by decide⟩
  | literal =>
    have hnot : ¬ ∀ ch ∈ q.buffer, isPlain ch = true := fun hplain => by
      cases (agrees_literal hs).mp ha hplain
    have hnone : makeValue cc q.buffer = none := by
      cases hv : makeValue cc q.buffer with
      | none => rfl
      | some val => exact absurd (literal_plain hcc _ _ hv).2.2 hnot
    have hne : q.currentState ≠ .value := by
      rw [hs]
      decide
    cases hc : q.contexts with
    | nil =>
      refine ⟨q, none, eat_stop ?_, by decide⟩
      rw [strictStep, if_neg (not_misplaced_of_state hne), coreStep, pass, hs]
      simp [onLiteral, hc, Flow.toMove]
    | cons top rest =>
      refine ⟨{ q with contexts := top :: rest }, some .invalidValue,
        eat_ret (not_misplaced_of_state hne) ?_, by decide⟩
      rw [pass, hs]
      simp [onLiteral, hc, storeLiteral, hnone, hs]
  | stringValue | key | stringValueEscSeq | keyEscSeq | beforeKey | beforeValue | afterValueObject
  | afterValueArray =>
    unfold Parser.Agrees at ha
    rw [hs] at ha
    cases ha

theorem document_membersHaveValues (hcc : cc.Plain) (d : Document (Literal cc)) {root : Container}
    {t : Parser} (h : scan (strictStep cc) (Parser.init root none) d.text =
      .stopped t (some .completed) d.text.length) : MembersHaveValues d.text := by
  intro u v htext hplace
  cases hu : scan (strictStep cc) (Parser.init root none) u with
  | stopped r e n =>
    have hle := (scan_stopped_take hu []).1
    rw [htext, scan_append_stopped hu] at h
    have hn := (Result.stopped.inj h).2.2
    rw [List.length_append, List.length_cons] at hn
    omega
  | more r =>
    obtain ⟨r', ec, heat, hec⟩ := strict_refuses hcc hu hplace
    rw [htext, scan_append_more hu, scan_cons_error v heat] at h
    exact hec (Result.stopped.inj h).2.1

theorem strict_document (hlit : PlainLiterals cc lit) (d : Document lit) {root : Container}
    {maxLevels : Option Nat} {res : ParseResult}
    (h : parse cc (Parser.init root maxLevels) d.text = .returned res q)
    (hec : res.ec = .completed) :
    ∃ t, scan (strictStep cc) (Parser.init root none) d.text =
      .stopped t (some .completed) d.text.length := by
  obtain ⟨r, hr⟩ := completed_unlimited h hec
  have hroom : (Parser.init root none).Room d.raw.depth := fun k hk => nomatch hk
  obtain ⟨hsome, hnone⟩ := runs_document hlit d hroom []
  rw [List.append_nil] at hsome hnone
  cases hload : d.raw.load with
  | some val =>
    obtain ⟨c, -, rfl⟩ := Option.map_eq_some_iff.mp
      ((load_wrap d.kind d.items.entries).symm.trans hload)
    obtain ⟨t, ht, -⟩ := hsome c hload
    exact ⟨t, ht⟩
  | none =>
    obtain ⟨t, m, ht⟩ := hnone hload
    obtain ⟨r', hr', -⟩ := parse_of_strict ht (nomatch ·)
    rw [hr'] at hr
    cases hr
    cases hec

/-- Before a misplaced `]` a completing run has read a colon that is still without its value. -/
theorem misplaced_afterColon (hcc : cc.Plain) {root : Container} {maxLevels : Option Nat}
    {u v : Str} {n : Nat} {t : Parser}
    (hrun : scan (step cc) (Parser.init root maxLevels) (u ++ Delimiters.endArray :: v) =
      .stopped t (some .completed) n)
    (hu : scan (strictStep cc) (Parser.init root maxLevels) u = .more q)
    (hu' : scan (coreStep cc) (Parser.init root maxLevels) u = .more q)
    (hs : q.currentState = .value) (harr : q.inArray = false) : placeAfter u = .afterColon := by
  rcases (agrees_value hs).mp (strict_agrees hcc hu) with ⟨-, hc | harr'⟩ | ⟨hplace, -⟩
  · -- at the top the parser would be undefined
    rw [← Parser.core_init root maxLevels, scan_core] at hu'
    cases hmore : scan (step cc) (Parser.init root maxLevels) u with
    | stopped r e m =>
      rw [hmore] at hu'
      cases hu'
    | more r =>
      rw [hmore] at hu'
      cases hu'
      obtain ⟨r', heat⟩ := atTop_endArray cc (p := r) ⟨hs, hc⟩
      rw [scan_append_more hmore, scan_cons_error v heat] at hrun
      cases hrun
  · rw [harr] at harr'
    cases harr'
  · exact hplace

theorem consumed_document_iff (hcc : cc.Plain) {root : Container} {maxLevels : Option Nat} {w : Str}
    {res : ParseResult} (h : parse cc (Parser.init root maxLevels) w = .returned res q)
    (hec : res.ec = .completed) :
    (∃ d : Document (Literal cc), d.text = w.take res.ptr) ↔
      MembersHaveValues (w.take res.ptr) := by
  -- the run on the consumed bytes
  have hrun : scan (step cc) (Parser.init root maxLevels) (w.take res.ptr) =
      .stopped q (some .completed) res.ptr := by
    have := (scan_stopped_take (stopped_of_completed h hec) []).2
    rwa [List.append_nil] at this
  constructor
  · rintro ⟨d, hd⟩
    rw [← hd] at hrun ⊢
    obtain ⟨t, ht⟩ := strict_document (literal_plain hcc) d (parse_of_stopped hrun) rfl
    exact document_membersHaveValues hcc d ht
  · intro hvalues
    have hcore := scan_core cc (Parser.init root maxLevels) (w.take res.ptr)
    rw [hrun] at hcore
    rcases strict_scan cc (Parser.init root maxLevels) (w.take res.ptr) with
      heq | ⟨u, v, r, hw, hu, hu', hs, harr, -⟩
    · rw [← Parser.core_init root maxLevels, hcore] at heq
      obtain ⟨d, hd⟩ := strict_sound heq
      refine ⟨d, hd.trans ?_⟩
      rw [List.take_take, Nat.min_self]
    · rw [hw] at hrun
      exact absurd (misplaced_afterColon hcc hrun hu' hu hs harr) (hvalues u v hw)

/-- **What is accepted.** The bytes a completing run has consumed are a document exactly if no `]`
among them comes where the value of a member is due. -/
theorem document_iff (cc : CharConv) (hcc : cc.Plain) (root : Container) (maxLevels : Option Nat)
    (chunks : List Str) (res : ParseResult) (q : Parser)
    (h : parseChunks cc (Parser.init root maxLevels) chunks = .returned res q)
    (hec : res.ec = .completed) :
    (∃ d : Document (Literal cc), d.text = chunks.flatten.take res.ptr) ↔
      MembersHaveValues (chunks.flatten.take res.ptr) := by
  rw [parseChunks_eq_parse] at h
  exact consumed_document_iff hcc h hec

/-- `[":]"]` is a document: its colon stands in a string. -/
theorem document_iff_colon :
    ∃ d : Document (Literal .binary), d.text = [0x5b, 0x22, 0x3a, 0x5d, 0x22, 0x5d] := by
  refine (document_iff .binary binary_plain .empty (some 1)
    [[0x5b, 0x22, 0x3a], [0x5d, 0x22, 0x5d, 0x20]] ⟨6, .completed, 1, 6⟩ _ rfl rfl).mpr ?_
  decide

theorem document_valueless_completes :
    ¬ ∀ cc : CharConv, cc.Plain → ∀ root maxLevels chunks res q,
      parseChunks cc (Parser.init root maxLevels) chunks = .returned res q →
      res.ec = .completed →
      ∃ d : Document (Literal cc), d.text = chunks.flatten.take res.ptr := by
  intro h
  obtain ⟨d, hd⟩ := h .binary binary_plain .empty (some 1024) [[0x7b, 0x22, 0x61, 0x22, 0x3a, 0x5d]]
    ⟨6, .completed, 1, 6⟩ _ rfl rfl
  have hrun : ∃ q, parse .binary (Parser.init .empty (some 1024)) d.text =
      .returned ⟨6, .completed, 1, 6⟩ q := by
    rw [hd]
    exact ⟨_, rfl⟩
  obtain ⟨q, hq⟩ := hrun
  obtain ⟨t, ht⟩ := strict_document (literal_plain binary_plain) d hq rfl
  exact document_membersHaveValues binary_plain d ht [0x7b, 0x22, 0x61, 0x22, 0x3a] [] hd rfl

/-! ## Malformed input -/

/-- **No access to an empty stack, and malformed input is reported.** The stack is never empty where
it is used exactly if the first byte that is not whitespace is not `]`. The run then comes back with
a code, and with `completed` for a document only, exactly if in addition no `]` is consumed by a
completing run where the value of a member is due. -/
theorem parseChunks_defined_iff (cc : CharConv) (root : Container) (maxLevels : Option Nat)
    (chunks : List Str) :
    (parseChunks cc (Parser.init root maxLevels) chunks ≠ .undefined ↔
      chunks.flatten.find? (fun ch => !isWhitespace ch) ≠ some Delimiters.endArray) ∧
    (cc.Plain → ((∃ res q,
        parseChunks cc (Parser.init root maxLevels) chunks = .returned res q ∧
          (res.ec = .completed →
            ∃ d : Document (Literal cc), d.text = chunks.flatten.take res.ptr)) ↔
      chunks.flatten.find? (fun ch => !isWhitespace ch) ≠ some Delimiters.endArray ∧
        ∀ res q, parseChunks cc (Parser.init root maxLevels) chunks = .returned res q →
          res.ec = .completed → MembersHaveValues (chunks.flatten.take res.ptr))) := by
  have hstack := not_congr (parse_undefined_iff cc root maxLevels chunks.flatten)
  rw [parseChunks_eq_parse]
  refine ⟨hstack, fun hcc => ?_⟩
  rw [ne_eq, ← hstack]
  cases hrun : parse cc (Parser.init root maxLevels) chunks.flatten with
  | undefined => simp
  | outOfFuel => exact absurd hrun (parse_ne_outOfFuel cc _ _)
  | returned res q =>
    have hconsumed := consumed_document_iff hcc hrun
    constructor
    · rintro ⟨_, _, ⟨⟩, hdocument⟩
      refine ⟨nofun, ?_⟩
      rintro _ _ ⟨⟩ hec
      exact (hconsumed hec).mp (hdocument hec)
    · rintro ⟨-, hvalues⟩
      exact ⟨res, q, rfl, fun hec => (hconsumed hec).mpr (hvalues res q rfl hec)⟩

/-- `{"a":[]}` in two pieces: here the `]` closes an array. -/
theorem parseChunks_defined_iff_array :
    ∃ res q, parseChunks .binary (Parser.init .empty (some 2))
        [[0x7b, 0x22, 0x61, 0x22, 0x3a], [0x5b, 0x5d, 0x7d]] = .returned res q ∧
      (res.ec = .completed → ∃ d : Document (Literal .binary), d.text =
        [[0x7b, 0x22, 0x61, 0x22, 0x3a], [0x5b, 0x5d, 0x7d]].flatten.take res.ptr) := by
  refine ((parseChunks_defined_iff .binary .empty (some 2) _).2 binary_plain).mpr ⟨by decide, ?_⟩
  intro res q hrun hec
  have hrun' : ∃ q', parseChunks .binary (Parser.init .empty (some 2))
      [[0x7b, 0x22, 0x61, 0x22, 0x3a], [0x5b, 0x5d, 0x7d]] =
        .returned ⟨8, .completed, 1, 8⟩ q' := ⟨_, rfl⟩
  obtain ⟨q', hq'⟩ := hrun'
  rw [hrun] at hq'
  cases hq'
  decide

/-- A lone `]` pops the empty stack. -/
theorem parse_endArray_undefined :
    ¬ ∀ (cc : CharConv), cc.Plain → ∀ (root : Container) (maxLevels : Option Nat)
      (chunks : List Str), ∃ res q,
        parseChunks cc (Parser.init root maxLevels) chunks = .returned res q ∧
          (res.ec = .completed →
            ∃ d : Document (Literal cc), d.text = chunks.flatten.take res.ptr) := by
  intro h
  obtain ⟨res, q, hrun, -⟩ := h .binary binary_plain .empty (some 1024) [[Delimiters.endArray]]
  cases hrun

/-! ## Repeated keys -/

/-- **Repeated keys.** A completing run has consumed a document in which at most arrays repeat a
key, exactly if no `]` comes where the value of a member is due. A document with a repeated key is
rejected in every run exactly if some repeated member is not an array; and the first repetition is
reported where its value ends exactly if that value is not an array. -/
theorem duplicate_iff (cc : CharConv) (hcc : cc.Plain) :
    (∀ root maxLevels chunks res q,
      parseChunks cc (Parser.init root maxLevels) chunks = .returned res q → res.ec = .completed →
      ((∃ d : Document (Literal cc), d.text = chunks.flatten.take res.ptr ∧
          ∀ n ∈ d.raw.nodes, ¬ n.RepeatsNonArray) ↔
        MembersHaveValues (chunks.flatten.take res.ptr))) ∧
    (∀ d : Document (Literal cc), (∃ n ∈ d.raw.nodes, n.RepeatsKey) →
      ((∀ root maxLevels u chunks res q, chunks.flatten = d.text ++ u →
        parseChunks cc (Parser.init root maxLevels) chunks = .returned res q →
        res.ec ≠ .completed) ↔ ∃ n ∈ d.raw.nodes, n.RepeatsNonArray)) ∧
    (∀ (pos : Position (Literal cc)) (v : Cst (Literal cc)), pos.Fresh →
      (v.raw.All fun n => ¬ n.RepeatsKey) →
      (pos.label.key ∈ pos.done.map fun item => item.label.key) →
      (RefusedAt cc pos v ↔ v.raw.isArray = false)) := by
  refine ⟨fun root maxLevels chunks res q hrun hec => ?_,
    fun d _ => never_completes_iff (literal_plain hcc) d,
    fun _ _ => refusedAt_iff (literal_plain hcc)⟩
  have hparse := hrun
  rw [parseChunks_eq_parse] at hparse
  rw [← consumed_document_iff hcc hparse hec]
  refine exists_congr fun d => and_iff_left_of_imp fun hd n hn hrepeats => ?_
  -- a run over a document that repeats another value than an array does not complete
  have hsplit : chunks.flatten = d.text ++ chunks.flatten.drop res.ptr := by
    rw [hd, List.take_append_drop]
  exact (never_completes_iff (literal_plain hcc) d).mpr ⟨n, hn, hrepeats⟩ root maxLevels _ chunks
    res q hsplit hrun hec

/-- `{"a":1,"a":[]}` repeats a key with an array only, and in `{"a":1,"a":0,` the second member is
refused at the comma. -/
theorem duplicate_iff_number :
    (∃ d : Document (Literal .binary), d.text =
        [0x7b, 0x22, 0x61, 0x22, 0x3a, 0x31, 0x2c, 0x22, 0x61, 0x22, 0x3a, 0x5b, 0x5d, 0x7d] ∧
      ∀ n ∈ d.raw.nodes, ¬ n.RepeatsNonArray) ∧
    RefusedAt .binary
      (⟨Blank.empty, [], [⟨.member Blank.empty [.raw 0x61 rfl] Blank.empty Blank.empty,
        .literal [0x31] (.number .one) rfl, Blank.empty⟩],
        .member Blank.empty [.raw 0x61 rfl] Blank.empty Blank.empty⟩ : Position (Literal .binary))
      (.literal [0x30] (.number ⟨0⟩) rfl) := by
  constructor
  · refine ((duplicate_iff .binary binary_plain).1 .empty none
      [[0x7b, 0x22, 0x61, 0x22, 0x3a, 0x31, 0x2c, 0x22, 0x61, 0x22, 0x3a, 0x5b, 0x5d, 0x7d]]
      ⟨14, .completed, 1, 14⟩ _ rfl rfl).mpr ?_
    decide
  · refine ((duplicate_iff .binary binary_plain).2.2 _ _ ?_ ?_ ?_).mpr rfl
    · intro f hf
      obtain rfl := List.mem_singleton.mp hf
      exact Value.all_object.mpr ⟨fun h => h (List.nodup_singleton _),
        by simp [Done.entry, Frame.entries, Cst.raw, Value.RepeatsKey]⟩
    · exact Value.all_number.mpr id
    · exact List.mem_cons_self ..

theorem duplicate_array_completes :
    ¬ ∀ (cc : CharConv), cc.Plain → ∀ d : Document (Literal cc), (∃ n ∈ d.raw.nodes, n.RepeatsKey) →
      ∀ root maxLevels chunks res q, chunks.flatten = d.text →
        parseChunks cc (Parser.init root maxLevels) chunks = .returned res q →
        res.ec ≠ .completed := by
  intro h
  refine h .binary binary_plain
    ⟨Blank.empty, .object,
      .more (.member Blank.empty [.raw 0x61 rfl] Blank.empty Blank.empty)
        (.literal [0x31] (.number .one) rfl) Blank.empty
        (.last (.member Blank.empty [.raw 0x61 rfl] Blank.empty Blank.empty)
          (.container .array (.close Blank.empty)) Blank.empty)⟩
    ⟨.object [([0x61], .number .one), ([0x61], .array [])], List.mem_cons_self ..,
      fun hn => by simp at hn⟩
    .empty none
    [[0x7b, 0x22, 0x61, 0x22, 0x3a, 0x31, 0x2c, 0x22, 0x61, 0x22, 0x3a, 0x5b, 0x5d, 0x7d]] _ _ rfl
    rfl rfl

end

end Jopp
