import Jopp.Parser.Nesting

/-!
# Jopp.Parser.Leading

A comma that comes directly behind an opening delimiter. In an object it is illegal, and in an array
it begins a literal, which cannot be one (`Parser.Hopeless`). So no parser completes on a text with
such a comma outside of its strings (`leading_comma`).
-/

namespace Jopp

open Resumable

/-- The literal under way has a byte that no literal has. -/
def Parser.Hopeless (p : Parser) : Prop :=
  p.currentState = .literal ∧ ∃ ch ∈ p.buffer, isPlain ch = false

/-- Where a parser is that has just opened a container. -/
def Parser.Opened (p : Parser) : Prop :=
  p.contexts ≠ [] ∧ (p.currentState = .value ∨ p.currentState = .beforeKey)

def NeverCompletes (cc : CharConv) (p : Parser) (w : Str) : Prop :=
  ∀ q n, scan (step cc) p w ≠ .stopped q (some .completed) n

section

variable {cc : CharConv} {p q : Parser} {ch : Byte} {w : Str}

theorem never_next (h : pass cc p ch = .brk q) (hq : NeverCompletes cc (q.count ch) w) :
    NeverCompletes cc p (ch :: w) := by
  intro r n hrun
  have heat : eat (step cc) p ch = .ok (q.count ch) := eat_next (by rw [step, h]; rfl)
  rw [scan_cons_ok w heat] at hrun
  cases hrest : scan (step cc) (q.count ch) w with
  | more t =>
    rw [hrest] at hrun
    cases hrun
  | stopped t e m =>
    rw [hrest] at hrun
    obtain ⟨rfl, rfl, -⟩ := Result.stopped.inj hrun
    exact hq t m hrest

theorem never_return {ec : ParserErrorCode} (h : pass cc p ch = .ret q ec)
    (hec : ec ≠ .completed) : NeverCompletes cc p (ch :: w) := by
  intro r n hrun
  have heat : eat (step cc) p ch = .error (q, some ec) := eat_stop (by rw [step, h]; rfl)
  rw [scan_cons_error w heat] at hrun
  exact hec (Option.some.inj (Result.stopped.inj hrun).2.1)

/-! ## A literal that cannot be one -/

theorem hopeless_count (h : p.Hopeless) (ch : Byte) : (p.count ch).Hopeless := by
  unfold Parser.Hopeless
  rw [Parser.count_currentState, Parser.count_buffer]
  exact h

theorem hopeless_branch (hcc : cc.Plain) {flow : Flow} (h : p.Hopeless)
    (hb : Branch cc p ch flow) :
    flow.Sat Parser.Hopeless (fun _ e => e ≠ some .completed) p := by
  obtain ⟨hlit, bad, hmem, hbad⟩ := h
  have hnone : ∀ {val : Value}, makeValue cc p.buffer = some val → False := fun hv => by
    rw [(literal_plain hcc _ _ hv).2.2 bad hmem] at hbad
    cases hbad
  have hstate : ∀ {s : ParserState}, p.currentState = s → s ≠ .literal → False :=
    fun hs hne => hne (hs.symm.trans hlit)
  have hquoted : ∀ {s escState : ParserState}, Quoted s escState →
      s ≠ .literal ∧ escState ≠ .literal := fun hs => by cases hs <;> decide
  have hcloses : Closes p.currentState ch → False := fun hs => by
    rw [hlit] at hs
    cases hs
  cases hb with
  | literalChar hs hch => exact ⟨hs, bad, List.mem_append_left _ hmem, hbad⟩
  | literalBlank hs hch hc hv | literalBack hs hch hw hc hv => exact (hnone hv).elim
  | blank hs hch =>
    rw [hlit] at hs
    cases hs
  | openArray hs | openObject hs | endInValue hs | openString hs | openLiteral hs | closeString hs
  | openKey hs | endInBeforeKey hs | closeKey hs | colon hs | commaObject hs | commaArray hs =>
    exact (hstate hs (by decide)).elim
  | rawChar hs => exact ((hquoted hs).1 hlit).elim
  | beginEsc hs => exact ((hquoted hs).1 hlit).elim
  | escChar hs => exact ((hquoted hs).2 hlit).elim
  | closeContainer hs hc | closeRoot hs hc => exact (hcloses hs).elim
  | tooDeep | leafAtTop | literalInvalid | literalRefused | rawIllegal | escIllegal
  | stringRefused | illegal | closeRefused => exact fun he => by cases he
  | literalEmpty | stringEmpty | keyEmpty | closeEmpty => exact fun he => by cases he

theorem never_of_hopeless (hcc : cc.Plain) (h : p.Hopeless) (w : Str) : NeverCompletes cc p w := by
  have hsat := scan_branch_inv (fun _ ch h => hopeless_count h ch)
    (fun _ _ _ h hb => hopeless_branch hcc h hb) h w
  intro q n hrun
  rw [hrun] at hsat
  exact hsat rfl

/-! ## Behind an opening delimiter -/

theorem opened_count (h : p.Opened) (ch : Byte) : (p.count ch).Opened := by
  unfold Parser.Opened
  rw [Parser.count_currentState, Parser.count_contexts]
  exact h

theorem opened_comma (hcc : cc.Plain) (h : p.Opened) (v : Str) :
    NeverCompletes cc p (Delimiters.valueSeparator :: v) := by
  obtain ⟨hne, hs | hs⟩ := h
  · have hlen : p.contexts.length ≠ 0 := mt List.length_eq_zero_iff.mp hne
    have hpass : pass cc p Delimiters.valueSeparator =
        .brk { p with
          buffer := p.buffer ++ [Delimiters.valueSeparator]
          currentState := .literal } := by
      rw [pass, hs]
      show onValue p _ = _
      unfold onValue
      rw [if_neg (by decide), if_neg (by decide), if_neg (by decide), if_neg (by decide),
        if_pos (by decide), if_neg hlen]
    exact never_next hpass (never_of_hopeless hcc (hopeless_count
      ⟨rfl, Delimiters.valueSeparator, List.mem_append_right _ (List.mem_singleton_self _), rfl⟩
      _) v)
  · have hpass : pass cc p Delimiters.valueSeparator = .ret p .illegalDelimiter := by
      rw [pass, hs]
      rfl
    exact never_return hpass (by decide)

theorem pass_blank (hs : p.currentState.skipsBlanks = true) (hch : isWhitespace ch = true) :
    pass cc p ch = .brk p := by
  obtain ⟨line, col, state, maxLevels, contexts, buffer, root⟩ := p
  rcases whitespace_cases hch with rfl | rfl | rfl | rfl <;>
    cases state <;> first | rfl | cases hs

theorem opened_gap (hcc : cc.Plain) {gap : Str} (hgap : ∀ ch ∈ gap, isWhitespace ch = true)
    (h : p.Opened) (v : Str) :
    NeverCompletes cc p (gap ++ Delimiters.valueSeparator :: v) := by
  induction gap generalizing p with
  | nil => exact opened_comma hcc h v
  | cons ch gap ih =>
    rw [List.forall_mem_cons] at hgap
    have hskips : p.currentState.skipsBlanks = true := by
      rcases h.2 with hs | hs <;> rw [hs] <;> rfl
    exact never_next (pass_blank hskips hgap.1) (ih hgap.2 (opened_count h ch))

/-- Outside of strings an opening delimiter begins a container, or cannot stand where it does. -/
theorem never_opener (hcc : cc.Plain) {n : NestingCount} (h : p.Counted n)
    (hq : n.place.quoted = false)
    (hch : ch = Delimiters.beginArray ∨ ch = Delimiters.beginObject)
    (hopened : ∀ q : Parser, q.Opened → NeverCompletes cc q w) : NeverCompletes cc p (ch :: w) := by
  have hplain : isPlain ch = false := by rcases hch with rfl | rfl <;> rfl
  cases hs : p.currentState with
  | value =>
    by_cases hd : p.tooDeep = true
    · have hpass : pass cc p ch = .ret p .nestingLevelTooDeep := by
        rw [pass, hs]
        rcases hch with rfl | rfl <;> simp [onValue, hd]
      exact never_return hpass (by decide)
    · rcases hch with rfl | rfl
      · have hpass : pass cc p Delimiters.beginArray =
            .brk { p with contexts := ⟨[], .array []⟩ :: p.contexts, currentState := .value } := by
          rw [pass, hs]
          simp [onValue, hd]
        exact never_next hpass (hopened _ (opened_count ⟨List.cons_ne_nil _ _, .inl rfl⟩ _))
      · have hpass : pass cc p Delimiters.beginObject =
            .brk { p with
              contexts := ⟨[], .object []⟩ :: p.contexts
              currentState := .beforeKey } := by
          rw [pass, hs]
          show onValue p _ = _
          rw [onValue, if_neg (by decide), if_pos rfl, if_neg hd]
        exact never_next hpass (hopened _ (opened_count ⟨List.cons_ne_nil _ _, .inr rfl⟩ _))
  | literal =>
    have hends : ¬ endsLiteral ch := by rcases hch with rfl | rfl <;> decide
    have hpass : pass cc p ch = .brk { p with buffer := p.buffer ++ [ch] } := by
      have hstate : pass cc p ch = onLiteral cc p ch := by rw [pass, hs]
      rw [hstate]
      exact if_neg hends
    have hopeless : Parser.Hopeless { p with buffer := p.buffer ++ [ch] } :=
      ⟨hs, ch, List.mem_append_right _ (List.mem_singleton_self ch), hplain⟩
    exact never_next hpass (never_of_hopeless hcc (hopeless_count hopeless ch) w)
  | stringValue | key | stringValueEscSeq | keyEscSeq =>
    unfold Parser.Counted at h
    rw [hs] at h
    rw [h.1] at hq
    cases hq
  | beforeKey | beforeValue | afterValueObject | afterValueArray =>
    have hpass : pass cc p ch = .ret p .illegalDelimiter := by
      rw [pass, hs]
      rcases hch with rfl | rfl <;> rfl
    exact never_return hpass (by decide)

/-- **A comma directly behind an opening delimiter**, outside of strings and before the outermost
container has ended: no parser completes on a text that has one. -/
theorem leading_comma (hcc : cc.Plain) {u : Str}
    (hended : ¬ (u.foldl NestingCount.next ⟨.outside, 0, 0⟩).Ended)
    (hq : (u.foldl NestingCount.next ⟨.outside, 0, 0⟩).place.quoted = false)
    (hch : ch = Delimiters.beginArray ∨ ch = Delimiters.beginObject) (gap : Blank) (v : Str)
    (maxLevels : Option Nat) (c : Container) :
    ¬ Completes cc maxLevels (u ++ ch :: (gap.val ++ Delimiters.valueSeparator :: v)) c := by
  rintro ⟨res, q, hrun, hec, -⟩
  have hstop := stopped_of_completed hrun hec
  cases hread : scan (step cc) (Parser.init .empty maxLevels) u with
  | stopped r e n =>
    -- it has stopped before, and nothing had ended then
    rw [scan_append_stopped hread] at hstop
    obtain ⟨rfl, rfl, rfl⟩ := Result.stopped.inj hstop
    obtain ⟨u', b, v', rfl, -, hcompleted⟩ := (counted_scan hcc .empty maxLevels u).2 _ _ _ hread
    have hend := (hcompleted rfl).1
    refine hended ?_
    rw [List.foldl_append, List.foldl_cons, foldl_ended hend]
    exact hend
  | more r =>
    have hcounted := (counted_scan hcc .empty maxLevels u).1 r hread
    have hnever := never_opener hcc hcounted hq hch
      (w := gap.val ++ Delimiters.valueSeparator :: v)
      fun t ht => opened_gap hcc gap.property ht v
    rw [scan_append_more hread] at hstop
    cases hrest : scan (step cc) r (ch :: (gap.val ++ Delimiters.valueSeparator :: v)) with
    | more t =>
      rw [hrest] at hstop
      cases hstop
    | stopped t e m =>
      rw [hrest] at hstop
      obtain ⟨rfl, rfl, -⟩ := Result.stopped.inj hstop
      exact hnever t m hrest

end

end Jopp
