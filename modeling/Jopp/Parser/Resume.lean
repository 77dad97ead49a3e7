import Jopp.Parser.Accepts
import Jopp.Parser.Codec

/-!
# Jopp.Parser.Resume

What a parser does with more input after a call has returned something else than a demand for it.

* `parse_after_error`: apart from `key_already_exists`, an error leaves the parser as if the byte
  it ended at had been a space, or in a string or literal had not been there.
* `reuse_iff`: behind an array a parser completes again, after a comma, as a fresh one would; behind
  an object it never does.
-/

namespace Jopp

open Resumable

/-! ## After an error -/

/-- The errors other than `key_already_exists`, each with what the byte it ends at amounts to. -/
def ParserErrorCode.standIn : ParserErrorCode → Option Str
  | .illegalDelimiter | .noTopLevelNode | .nestingLevelTooDeep => some [space]
  | .characterMustBeEscaped | .unsupportedEscapeSequence | .invalidValue => some []
  | .completed | .moreDataNeeded | .keyAlreadyExists => none

/-- The same outcome, `shift` bytes later in the input, positions apart. -/
def Outcome.Agrees (shift : Nat) : Outcome → Outcome → Prop
  | .returned res q, .returned res' q' =>
    res'.ec = res.ec ∧ res'.ptr = shift + res.ptr ∧ q'.core = q.core
  | .undefined, .undefined => True
  | _, _ => False

section

variable {cc : CharConv} {p q : Parser} {ch : Byte} {ec : ParserErrorCode} {s : Str}

/-- What a pass must establish for the byte at which it ends the run. -/
def StandsIn (cc : CharConv) (p : Parser) : Flow → Prop
  | .ret q ec => ∀ s, ec.standIn = some s → scan (coreStep cc) p s = .more q
  | _ => True

theorem eat_space (hs : p.currentState.skipsBlanks = true) :
    eat (coreStep cc) p space = .ok p := by
  refine eat_next ?_
  have hpass : pass cc p space = .brk p := by
    obtain ⟨line, col, state, maxLevels, contexts, buffer, root⟩ := p
    cases state <;> first | rfl | cases hs
  rw [coreStep, hpass]
  rfl

theorem scan_space (hs : p.currentState.skipsBlanks = true) :
    scan (coreStep cc) p [space] = .more p := by
  rw [scan_cons_ok [] (eat_space hs)]
  rfl

theorem branch_standsIn {flow : Flow} (hb : Branch cc p ch flow) : StandsIn cc p flow := by
  cases hb with
  | tooDeep hs hch hd | leafAtTop hs hch ha ho he hc =>
    rintro s ⟨⟩
    exact scan_space (by rw [hs]; rfl)
  | illegal hs hv hch =>
    rintro s ⟨⟩
    exact scan_space hs
  | literalInvalid hs hch hc hv | rawIllegal hs hch hq hb | escIllegal hs hch =>
    rintro s ⟨⟩
    rfl
  | literalRefused | stringRefused | closeRoot | closeRefused => exact nofun
  | _ => trivial

/-- A closing delimiter ends the run with `completed` or `key_already_exists` only. -/
theorem standIn_of_closes (hs : Closes p.currentState ch) (h : pass cc p ch = .ret q ec) :
    ec.standIn = none := by
  obtain ⟨line, col, state, maxLevels, contexts, buffer, root⟩ := p
  cases hs with
  | object =>
    rcases contexts with _ | ⟨current, _ | ⟨top, rest⟩⟩
    · cases h
    · cases h
      rfl
    · simp only [pass, onAfterValueObject, if_true, storeContainer, storeValue_err] at h
      cases hr : refuses top (toValue current.value) with
      | true =>
        rw [hr] at h
        cases h
        rfl
      | false =>
        rw [hr] at h
        cases h
  | array =>
    rcases contexts with _ | ⟨current, _ | ⟨top, rest⟩⟩
    · cases h
    · cases h
      rfl
    · cases h

/-- A byte that ends a literal and is handed back amounts to a space, if the run ends at it. -/
theorem standsIn_back {r : Parser} (h : pass cc p ch = .brkBack r)
    (h' : pass cc r ch = .ret q ec) : StandsIn cc p (.ret q ec) := by
  intro s hs
  have hb := pass_branch cc p ch
  rw [h] at hb
  cases hb with
  | endInValue hstate hch =>
    subst hch
    rw [standIn_of_closes .array h'] at hs
    cases hs
  | endInBeforeKey hstate hch =>
    subst hch
    rw [standIn_of_closes .object h'] at hs
    cases hs
  | literalBack hstate hch hw hc hv hr =>
    rename_i top rest val
    have hafter : (p.put top rest val).currentState = top.value.kind.afterItem := put_state val
    have hskips : (p.put top rest val).currentState.skipsBlanks = true := by
      rw [hafter]
      exact skipsBlanks_afterItem _
    have hother : ∀ s, top.value.kind.afterItem ≠ s → (p.put top rest val).currentState ≠ s :=
      fun s hne heq => hne (hafter.symm.trans heq)
    have hb' := pass_branch cc ({ p.put top rest val with buffer := [] } : Parser) ch
    rw [h'] at hb'
    cases hb' with
    | illegal hskips hvalue hch' =>
      -- the value is stored, and the byte is illegal after it
      cases hs
      have hpass : pass cc p space = .brk { p.put top rest val with buffer := [] } := by
        have hends : space = Delimiters.valueSeparator ∨ space = Delimiters.endArray ∨
            space = Delimiters.endObject ∨ isWhitespace space = true := .inr (.inr (.inr rfl))
        rw [pass, hstate]
        simp only [onLiteral, if_pos hends, hc, storeLiteral, hv, storeValue_err, storeValue_moved,
          hr]
        rfl
      have heat : eat (coreStep cc) p space = .ok { p.put top rest val with buffer := [] } :=
        eat_next (by rw [coreStep, hpass]; rfl)
      rw [scan_cons_ok [] heat]
      rfl
    | tooDeep hs' | leafAtTop hs' =>
      exact absurd hs' (hother _ (by cases top.value.kind <;> decide))
    | literalInvalid hs' => exact absurd hs' (hother _ (by cases top.value.kind <;> decide))
    | rawIllegal hs' => exact absurd (hs'.skipsBlanks.1.symm.trans hskips) (by decide)
    | escIllegal hs' => exact absurd (hs'.skipsBlanks.2.symm.trans hskips) (by decide)
    | literalRefused | stringRefused | closeRoot | closeRefused => cases hs

/-- The byte at which the run ends with an error has a stand-in that leads to the same parser. -/
theorem eat_standIn (h : eat (coreStep cc) p ch = .error (q, some ec)) (hec : ec.standIn = some s) :
    scan (coreStep cc) p s = .more q := by
  cases hstep : coreStep cc p ch with
  | next r =>
    rw [eat_next hstep] at h
    cases h
  | stop r e =>
    rw [eat_stop hstep] at h
    cases h
    have hstands : StandsIn cc p (.ret q ec) :=
      toMove_eq_stop hstep ▸ branch_standsIn (pass_branch cc p ch)
    exact hstands s hec
  | back r =>
    rw [eat_back (coreStep_settles cc) hstep] at h
    cases hstep' : coreStep cc r ch with
    | next t =>
      rw [eat_next hstep'] at h
      cases h
    | back t => exact absurd hstep' (coreStep_settles cc p ch r hstep t)
    | stop t e =>
      rw [eat_stop hstep'] at h
      cases h
      exact standsIn_back (toMove_eq_back hstep) (toMove_eq_stop hstep') s hec

theorem agrees_of_scan {u v : Str}
    (h : scan (coreStep cc) p.core (u ++ v) = (scan (coreStep cc) q.core v).after u.length) :
    (parse cc q v).Agrees u.length (parse cc p (u ++ v)) := by
  rw [scan_core, scan_core] at h
  rw [parse_eq_scan, parse_eq_scan]
  cases hq : scan (step cc) q v with
  | more r =>
    rw [hq] at h
    cases hp : scan (step cc) p (u ++ v) with
    | more r' =>
      rw [hp] at h
      exact ⟨rfl, List.length_append, Result.more.inj h⟩
    | stopped r' e n =>
      rw [hp] at h
      cases h
  | stopped r e n =>
    rw [hq] at h
    cases hp : scan (step cc) p (u ++ v) with
    | more r' =>
      rw [hp] at h
      cases h
    | stopped r' e' n' =>
      rw [hp] at h
      obtain ⟨hcore, rfl, rfl⟩ := Result.stopped.inj h
      cases e' with
      | none => trivial
      | some ec => exact ⟨rfl, rfl, hcore⟩

/-- **After an error** other than `key_already_exists`, the calls that follow do what they would do
after the input before the byte at which the call has ended, and a space if it stood outside
strings and literals or ended one that was stored. -/
theorem parse_after_error (cc : CharConv) (p q : Parser) (w : Str) (res : ParseResult)
    (h : parse cc p w = .returned res q) (s : Str) (hs : res.ec.standIn = some s) (v : Str) :
    (parse cc q v).Agrees (w.take (res.ptr - 1) ++ s).length
      (parse cc p (w.take (res.ptr - 1) ++ s ++ v)) := by
  rcases returned_cases h with ⟨-, hres⟩ | ⟨hrun, -⟩
  · rw [hres] at hs
    cases hs
  · have hcore := scan_core cc p w
    rw [hrun] at hcore
    obtain ⟨u, ch, v', r, rfl, hn, hu, heat⟩ := scan_stopped hcore
    have htake : (u ++ ch :: v').take (res.ptr - 1) = u := by
      rw [hn, Nat.add_sub_cancel, List.take_left]
    have hstand := eat_standIn heat hs
    rw [htake]
    refine agrees_of_scan ?_
    rw [List.append_assoc, scan_append_more hu, scan_append_more hstand, Result.after_after,
      List.length_append]

/-- After `{"a"1` the parser still takes `:1}`. -/
theorem parse_after_error_number :
    ∃ q, parse .binary (Parser.init .empty none) [0x7b, 0x22, 0x61, 0x22, 0x31] =
        .returned ⟨5, .illegalDelimiter, 1, 5⟩ q ∧
      (parse .binary q [0x3a, 0x31, 0x7d]).Agrees 5 (parse .binary (Parser.init .empty none)
        [0x7b, 0x22, 0x61, 0x22, 0x20, 0x3a, 0x31, 0x7d]) := by
  have hrun : ∃ q, parse .binary (Parser.init .empty none) [0x7b, 0x22, 0x61, 0x22, 0x31] =
      .returned ⟨5, .illegalDelimiter, 1, 5⟩ q := ⟨_, rfl⟩
  obtain ⟨q, hq⟩ := hrun
  exact ⟨q, hq, parse_after_error .binary _ q _ _ hq [space] rfl [0x3a, 0x31, 0x7d]⟩

/-! ## After a document -/

def Parser.CompletesOn (cc : CharConv) (p : Parser) (w : Str) (c : Container) : Prop :=
  ∃ res q, parse cc p w = .returned res q ∧ res.ec = .completed ∧ q.root = c

/-- What holds where a run has completed at the byte `ch`. -/
def Parser.Closed (q : Parser) (ch : Byte) : Prop :=
  q.contexts = [] ∧ q.buffer = [] ∧ Closes q.currentState ch

theorem closed_branch {flow : Flow} (h : p.Tidy) (hb : Branch cc p ch flow) :
    flow.SatRead (fun c _ => c) (fun p (_ : Unit) => p.Tidy)
      (fun q e _ ch => e = some .completed → q.Closed ch) p () ch := by
  have htidy := tidy_branch h hb
  cases flow with
  | brk q => exact htidy
  | brkBack q => exact htidy
  | undefined => exact nofun
  | ret q ec =>
    cases hb with
    | closeRoot hs hc => exact fun _ => ⟨rfl, h.buffer hs.skipsBlanks, hs⟩
    | _ => exact nofun

theorem closed_of_completed {root : Container} {maxLevels : Option Nat} {w : Str}
    {res : ParseResult} (h : parse cc (Parser.init root maxLevels) w = .returned res q)
    (hec : res.ec = .completed) :
    ∃ u ch v, w = u ++ ch :: v ∧ res.ptr = u.length + 1 ∧ q.Closed ch := by
  obtain ⟨u, ch, v, hw, hn, hclosed⟩ := (scan_branch_foldl (g := fun c _ => c)
    (I := fun p (_ : Unit) => p.Tidy) (fun p _ ch hp => ⟨by simpa using hp.buffer,
      by simpa using hp.contexts⟩) (fun _ _ _ _ => closed_branch)
    (p := Parser.init root maxLevels) (c := ()) ⟨fun _ => rfl, fun _ => .inl rfl⟩ w).2 _ _ _
      (stopped_of_completed h hec)
  exact ⟨u, ch, v, hw, hn, hclosed rfl⟩

/-! ### Behind an object -/

/-- No container is open, and no value can come any more. -/
def Parser.Spent (p : Parser) : Prop :=
  p.contexts = [] ∧ p.currentState.inObject = true ∧ p.currentState ≠ .beforeValue

theorem spent_branch {flow : Flow} (h : p.Spent) (hb : Branch cc p ch flow) :
    flow.Sat Parser.Spent (fun _ e => e ≠ some .completed) p := by
  obtain ⟨hc, hin, hne⟩ := h
  have hstate : ∀ {s : ParserState}, p.currentState = s → s.inObject = false → False :=
    fun hs hout => by
      rw [hs, hout] at hin
      cases hin
  have hempty : ∀ {top : ParserContext} {rest : List ParserContext}, p.contexts = top :: rest →
      False := fun hc' => by
    rw [hc] at hc'
    cases hc'
  cases hb with
  | blank hs hch => exact ⟨hc, hin, hne⟩
  | openArray hs | openObject hs | endInValue hs | openString hs | openLiteral hs
  | literalChar hs | commaArray hs => exact (hstate hs rfl).elim
  | literalBlank hs hch hc' | literalBack hs hch hw hc' | closeString hs hch hc'
  | closeKey hs hch hc' | closeContainer hs hc' | closeRoot hs hc' => exact (hempty hc').elim
  | rawChar hs hch => exact ⟨hc, hin, hne⟩
  | beginEsc hs hch =>
    refine ⟨hc, hs.inObject.symm.trans hin, ?_⟩
    generalize p.currentState = s at hs
    cases hs <;> exact nofun
  | escChar hs hch =>
    refine ⟨hc, hs.inObject.trans hin, ?_⟩
    generalize p.currentState = s at hs
    cases hs <;> exact nofun
  | openKey hs hch | endInBeforeKey hs hch | commaObject hs hch => exact ⟨hc, rfl, nofun⟩
  | colon hs hch => exact absurd hs hne
  | tooDeep | leafAtTop | literalInvalid | literalRefused | rawIllegal | escIllegal | stringRefused
  | illegal | closeRefused => exact nofun
  | literalEmpty | stringEmpty | keyEmpty | closeEmpty => exact nofun

theorem not_completesOn_of_spent (h : p.Spent) (w : Str) (c : Container) :
    ¬ p.CompletesOn cc w c := by
  rintro ⟨res, q, hrun, hec, -⟩
  have hsat : (scan (step cc) p w).Sat Parser.Spent fun _ e => e ≠ some .completed :=
    scan_branch_inv (fun p ch hp => by simpa [Parser.Spent] using hp)
      (fun _ _ _ => spent_branch) h w
  rw [stopped_of_completed hrun hec] at hsat
  exact hsat rfl

/-! ### Behind an array -/

/-- A parser after an array that has nothing around it. -/
theorem Parser.Closed.core_eq {k : Kind} (h : q.Closed k.closer) :
    q.core = q.core.enter k.afterItem [] := by
  obtain ⟨line, col, state, maxLevels, contexts, buffer, root⟩ := q
  obtain ⟨hc, hb, hs⟩ := h
  cases hc
  cases hb
  cases k <;> cases hs <;> rfl

theorem completesOn_iff {w : Str} {c : Container} :
    p.CompletesOn cc w c ↔
      ∃ q n, scan (coreStep cc) p.core w = .stopped q (some .completed) n ∧ q.root = c := by
  rw [scan_core]
  constructor
  · rintro ⟨res, q, hrun, hec, rfl⟩
    rw [stopped_of_completed hrun hec]
    exact ⟨q.core, _, rfl, rfl⟩
  · rintro ⟨q, n, hrun, rfl⟩
    cases hstop : scan (step cc) p w with
    | more r =>
      rw [hstop] at hrun
      cases hrun
    | stopped r e m =>
      rw [hstop] at hrun
      obtain ⟨rfl, rfl, rfl⟩ := Result.stopped.inj hrun
      exact ⟨_, r, parse_of_stopped hstop, rfl, rfl⟩

theorem eat_afterArray (hw : isWhitespace ch = false) (hcomma : ch ≠ Delimiters.valueSeparator) :
    ∃ r e, eat (coreStep cc) (p.enter .afterValueArray []) ch = .error (r, e) ∧
      e ≠ some .completed := by
  have hpass : pass cc (p.enter .afterValueArray []) ch =
      if ch = Delimiters.endArray then .undefined
      else .ret (p.enter .afterValueArray []) .illegalDelimiter := by
    show onAfterValueArray _ _ = _
    simp only [onAfterValueArray, hcomma, hw, if_false]
    rfl
  by_cases hend : ch = Delimiters.endArray
  · rw [if_pos hend] at hpass
    exact ⟨_, none, eat_stop (by rw [coreStep, hpass]; rfl), by decide⟩
  · rw [if_neg hend] at hpass
    exact ⟨_, some .illegalDelimiter, eat_stop (by rw [coreStep, hpass]; rfl), by decide⟩

theorem scan_afterArray (w : Str) {c : Container} :
    (∃ q n, scan (coreStep cc) (p.enter .afterValueArray []) w = .stopped q (some .completed) n ∧
        q.root = c) ↔
      ∃ (gap : Blank) (v : Str), w = gap.val ++ Delimiters.valueSeparator :: v ∧
        ∃ q n, scan (coreStep cc) (p.enter .value []) v = .stopped q (some .completed) n ∧
          q.root = c := by
  have hcomma : eat (coreStep cc) (p.enter .afterValueArray []) Delimiters.valueSeparator =
      .ok (p.enter .value []) := eat_next rfl
  have hblank : ∀ {ch}, isWhitespace ch = true → eat (coreStep cc) (p.enter .afterValueArray [])
      ch = .ok (p.enter .afterValueArray []) := fun hw => by
    rcases whitespace_cases hw with rfl | rfl | rfl | rfl <;> exact eat_next rfl
  constructor
  · intro h
    induction w with
    | nil =>
      obtain ⟨q, n, hrun, -⟩ := h
      cases hrun
    | cons ch w ih =>
      obtain ⟨q, n, hrun, hroot⟩ := h
      cases hw : isWhitespace ch with
      | true =>
        rw [scan_cons_ok w (hblank hw)] at hrun
        cases hrest : scan (coreStep cc) (p.enter .afterValueArray []) w with
        | more r =>
          rw [hrest] at hrun
          cases hrun
        | stopped r e m =>
          rw [hrest] at hrun
          obtain ⟨rfl, rfl, -⟩ := Result.stopped.inj hrun
          obtain ⟨gap, v, rfl, hv⟩ := ih ⟨r, m, hrest, hroot⟩
          exact ⟨gap.cons ch hw, v, rfl, hv⟩
      | false =>
        by_cases hch : ch = Delimiters.valueSeparator
        · subst hch
          rw [scan_cons_ok w hcomma] at hrun
          cases hrest : scan (coreStep cc) (p.enter .value []) w with
          | more r =>
            rw [hrest] at hrun
            cases hrun
          | stopped r e m =>
            rw [hrest] at hrun
            obtain ⟨rfl, rfl, -⟩ := Result.stopped.inj hrun
            exact ⟨Blank.empty, w, rfl, r, m, hrest, hroot⟩
        · have hend : ∃ r e, eat (coreStep cc) (p.enter .afterValueArray []) ch = .error (r, e) ∧
              e ≠ some .completed := eat_afterArray hw hch
          obtain ⟨r, e, heat, hne⟩ := hend
          rw [scan_cons_error w heat] at hrun
          exact absurd (Result.stopped.inj hrun).2.1 hne
  · rintro ⟨⟨gap, hgap⟩, v, rfl, q, n, hrun, hroot⟩
    induction gap with
    | nil =>
      refine ⟨q, 1 + n, ?_, hroot⟩
      show scan _ _ (Delimiters.valueSeparator :: v) = _
      rw [scan_cons_ok v hcomma, hrun]
      rfl
    | cons ch gap ih =>
      rw [List.forall_mem_cons] at hgap
      obtain ⟨q', n', hrun', hroot'⟩ := ih hgap.2
      refine ⟨q', 1 + n', ?_, hroot'⟩
      show scan _ _ (ch :: (gap ++ Delimiters.valueSeparator :: v)) = _
      rw [scan_cons_ok _ (hblank hgap.1), hrun']
      rfl

/-- **Using a parser again.** Where it has completed at a `]`, it completes again where whitespace
and a comma come first and a fresh parser completes on the rest. Where it has completed at a `}`,
it does not complete again. -/
theorem reuse_iff (cc : CharConv) (root : Container) (maxLevels : Option Nat) (chunks : List Str)
    (res : ParseResult) (q : Parser)
    (h : parseChunks cc (Parser.init root maxLevels) chunks = .returned res q)
    (hec : res.ec = .completed) :
    ∃ k : Kind, chunks.flatten[res.ptr - 1]? = some k.closer ∧ ∀ w c,
      (q.CompletesOn cc w c ↔ k = .array ∧
        ∃ (gap : Blank) (v : Str), w = gap.val ++ Delimiters.valueSeparator :: v ∧
          (Parser.init q.root maxLevels).CompletesOn cc v c) := by
  rw [parseChunks_eq_parse] at h
  have hlevels : q.maxLevels = maxLevels := by
    have hsat := maxLevels_scan cc (Parser.init root maxLevels) chunks.flatten
    rw [stopped_of_completed h hec] at hsat
    exact hsat
  obtain ⟨u, ch, v, hw, hn, hclosed⟩ := closed_of_completed h hec
  obtain ⟨k, rfl⟩ : ∃ k : Kind, ch = k.closer := by
    have hs := hclosed.2.2
    generalize q.currentState = s at hs
    cases hs with
    | object => exact ⟨.object, rfl⟩
    | array => exact ⟨.array, rfl⟩
  refine ⟨k, by simp [hw, hn], fun w c => ?_⟩
  cases k with
  | array =>
    have hfresh : (Parser.init q.root maxLevels).core = q.core.enter .value [] := by
      rw [← hlevels]
      rfl
    simp only [completesOn_iff, hfresh, true_and]
    rw [hclosed.core_eq]
    exact scan_afterArray w
  | object =>
    refine iff_of_false (not_completesOn_of_spent ⟨hclosed.1, ?_, ?_⟩ w c) fun hk => nomatch hk.1
    · have hs := hclosed.2.2
      generalize q.currentState = s at hs
      cases hs
      rfl
    · have hs := hclosed.2.2
      generalize q.currentState = s at hs
      cases hs
      exact nofun

/-- Behind `[1]` comes ` ,{}`. -/
theorem reuse_iff_array :
    ∃ q, parseChunks .binary (Parser.init .empty none) [[0x5b], [0x31, 0x5d]] =
        .returned ⟨3, .completed, 1, 3⟩ q ∧
      q.CompletesOn .binary [0x20, 0x2c, 0x7b, 0x7d] .empty := by
  have hrun : ∃ q, parseChunks .binary (Parser.init .empty none) [[0x5b], [0x31, 0x5d]] =
      .returned ⟨3, .completed, 1, 3⟩ q := ⟨_, rfl⟩
  obtain ⟨q, hq⟩ := hrun
  refine ⟨q, hq, ?_⟩
  obtain ⟨k, hk, hall⟩ := reuse_iff .binary .empty none _ _ q hq rfl
  have harr : k = .array := by
    cases k with
    | array => rfl
    | object => cases hk
  exact (hall _ _).mpr ⟨harr, ⟨[0x20], List.all_eq_true.mp rfl⟩, [0x7b, 0x7d], rfl, _, _, rfl, rfl,
    rfl⟩

end

end Jopp
