import Jopp.Parser.Chunks

/-!
# Jopp.Parser.Stack

When `m_contexts.top()` and `m_contexts.pop()` meet an empty stack. A container, once opened,
stays on the stack until the completing `return`, and the states inside an object have an object
on top (`Parser.Open`). Before the first container is opened the parser is in state `value`,
where the branch for `]` hands the byte to `after_value_array`, which pops without a check.

So a run of a fresh parser meets undefined behaviour exactly when the first byte that is not
whitespace is `]` (`parse_undefined_iff`).
-/

namespace Jopp

open Resumable

/-- The states between `{` and the end of a member. -/
def ParserState.inObject : ParserState → Bool
  | .beforeKey | .key | .keyEscSeq | .beforeValue | .afterValueObject => true
  | _ => false

theorem Quoted.inObject {s escState : ParserState} (h : Quoted s escState) :
    s.inObject = escState.inObject := by
  cases h <;> rfl

/-- A container is open, and it is an object in the states inside an object. -/
def Parser.Open (p : Parser) : Prop :=
  ∃ top rest, p.contexts = top :: rest ∧
    (p.currentState.inObject = true → top.value.kind = .object)

theorem open_count {p : Parser} {ch : Byte} (h : p.Open) : (p.count ch).Open := by
  simpa [Parser.Open] using h

theorem open_put (p : Parser) (top : ParserContext) (rest : List ParserContext) (val : Value) :
    (p.put top rest val).Open := by
  refine ⟨_, _, rfl, fun h => ?_⟩
  rcases storeValue_kind top val with ⟨_, _, -, hv, -⟩ | ⟨_, _, -, -, hs⟩
  · rw [hv]; rfl
  · rw [Parser.put_currentState, hs] at h
    cases h

/-- With a container open every branch leaves one open or returns an error code. -/
theorem open_branch {cc : CharConv} {p : Parser} {ch : Byte} {flow : Flow} (h : p.Open)
    (hb : Branch cc p ch flow) : flow.Sat Parser.Open (fun _ e => e ≠ none) p := by
  obtain ⟨top, rest, hc, hobj⟩ := h
  cases hb with
  | blank hs hch => exact ⟨top, rest, hc, hobj⟩
  | openArray hs hch hd => exact ⟨_, _, rfl, fun h => by cases h⟩
  | openObject hs hch hd => exact ⟨_, _, rfl, fun _ => rfl⟩
  | endInValue hs hch => exact ⟨top, rest, hc, fun h => by cases h⟩
  | openString hs hch hne => exact ⟨top, rest, hc, fun h => by cases h⟩
  | openLiteral hs hch ha ho he hq hne => exact ⟨top, rest, hc, fun h => by cases h⟩
  | literalChar hs hch => exact ⟨top, rest, hc, hobj⟩
  | literalBlank hs hch hc' hv hr => exact open_put p _ _ _
  | literalBack hs hch hw hc' hv hr => exact open_put p _ _ _
  | literalEmpty hs hch hc' => rw [hc] at hc'; cases hc'
  | rawChar hs hch => exact ⟨top, rest, hc, hobj⟩
  | beginEsc hs hch => exact ⟨top, rest, hc, fun h => hobj (hs.inObject.trans h)⟩
  | escChar hs hch => exact ⟨top, rest, hc, fun h => hobj (hs.inObject.symm.trans h)⟩
  | closeString hs hch hc' hr => exact open_put p _ _ _
  | stringEmpty hs hch hc' => rw [hc] at hc'; cases hc'
  | openKey hs hch => exact ⟨top, rest, hc, fun _ => hobj (by rw [hs]; rfl)⟩
  | endInBeforeKey hs hch => exact ⟨top, rest, hc, fun _ => hobj (by rw [hs]; rfl)⟩
  | closeKey hs hch hc' =>
    rw [hc] at hc'
    cases hc'
    exact ⟨_, _, rfl, fun _ => hobj (by rw [hs]; rfl)⟩
  | keyEmpty hs hch hc' => rw [hc] at hc'; cases hc'
  | colon hs hch => exact ⟨top, rest, hc, fun h => by cases h⟩
  | commaObject hs hch => exact ⟨top, rest, hc, fun _ => hobj (by rw [hs]; rfl)⟩
  | commaArray hs hch => exact ⟨top, rest, hc, fun h => by cases h⟩
  | closeContainer hs hc' hr => exact open_put p _ _ _
  | closeEmpty hs hc' => rw [hc] at hc'; cases hc'
  | tooDeep | leafAtTop | literalInvalid | literalRefused | rawIllegal | escIllegal | stringRefused
  | illegal | closeRoot | closeRefused => simp [Flow.Sat]

theorem open_scan (cc : CharConv) {p : Parser} (h : p.Open) (w : Str) :
    (scan (step cc) p w).Sat Parser.Open (fun _ e => e ≠ none) :=
  scan_branch_inv (fun _ _ => open_count) (fun _ _ _ => open_branch) h w

def Parser.AtTop (p : Parser) : Prop := p.currentState = .value ∧ p.contexts = []

theorem atTop_endArray (cc : CharConv) {p : Parser} (h : p.AtTop) :
    ∃ q, eat (step cc) p Delimiters.endArray = .error (q, none) := by
  have hback : step cc p Delimiters.endArray =
      .back { p with currentState := .afterValueArray } := by
    simp only [step, pass, h.1]; rfl
  refine ⟨{ p with currentState := .afterValueArray }, ?_⟩
  rw [eat_back (step_settles cc) hback, eat_stop]
  simp [step, pass, onAfterValueArray, h.2, Flow.toMove]

/-- At the top, any other byte is skipped, opens a container or ends the run with a code. -/
theorem atTop_other (cc : CharConv) {p : Parser} {ch : Byte} (h : p.AtTop)
    (hch : ch ≠ Delimiters.endArray) :
    (isWhitespace ch = true ∧ ∃ q, q.AtTop ∧ eat (step cc) p ch = .ok q) ∨
    (isWhitespace ch = false ∧ ((∃ q, q.Open ∧ eat (step cc) p ch = .ok q) ∨
      ∃ q ec, eat (step cc) p ch = .error (q, some ec))) := by
  obtain ⟨hs, hc⟩ := h
  have hb := pass_branch cc p ch
  cases hf : pass cc p ch <;> rw [hf] at hb
  case brk q =>
    have he : eat (step cc) p ch = .ok (q.count ch) := eat_next (by simp [step, hf, Flow.toMove])
    cases hb with
    | blank _ hw => exact .inl ⟨hw, p.count ch, by simp [Parser.AtTop, hs, hc], he⟩
    | openArray _ hch hd =>
      exact .inr ⟨by rw [hch]; rfl, .inl ⟨_, open_count ⟨_, _, rfl, fun h => by cases h⟩, he⟩⟩
    | openObject _ hch hd =>
      exact .inr ⟨by rw [hch]; rfl, .inl ⟨_, open_count ⟨_, _, rfl, fun _ => rfl⟩, he⟩⟩
    | rawChar hs' | beginEsc hs' | escChar hs' => rw [hs] at hs'; cases hs'
    | closeContainer hs' => rw [hs] at hs'; cases hs'
    | _ => simp_all
  case ret q ec =>
    have he : eat (step cc) p ch = .error (q, some ec) :=
      eat_stop (by simp [step, hf, Flow.toMove])
    refine .inr ⟨?_, .inr ⟨q, ec, he⟩⟩
    cases hb with
    | tooDeep _ hch => rcases hch with rfl | rfl <;> rfl
    | leafAtTop _ hw => exact hw
    | rawIllegal hs' | escIllegal hs' => rw [hs] at hs'; cases hs'
    | closeRoot hs' => rw [hs] at hs'; cases hs'
    | _ => simp_all
  case brkBack q =>
    cases hb with
    | endInValue _ h => exact absurd h hch
    | _ => simp_all
  case undefined =>
    cases hb with
    | closeEmpty hs' => rw [hs] at hs'; cases hs'
    | _ => simp_all

/-- From the top, a run goes wrong exactly if `]` comes first. -/
theorem atTop_scan (cc : CharConv) {p : Parser} (h : p.AtTop) (w : Str) :
    (∃ q n, scan (step cc) p w = .stopped q none n) ↔
      w.find? (fun ch => !isWhitespace ch) = some Delimiters.endArray := by
  induction w generalizing p with
  | nil => simp [scan]
  | cons ch w ih =>
    by_cases hch : ch = Delimiters.endArray
    · subst hch
      obtain ⟨q, he⟩ := atTop_endArray cc h
      exact iff_of_true ⟨q, 1, scan_cons_error w he⟩ rfl
    · rcases atTop_other cc h hch with
        ⟨hw, q, hq, he⟩ | ⟨hw, ⟨q, hq, he⟩ | ⟨q, ec, he⟩⟩
      · rw [scan_cons_ok w he, List.find?_cons_of_neg (by simp [hw]), ← ih hq]
        cases hr : scan (step cc) q w <;> simp
      · have hsat := open_scan cc hq w
        rw [scan_cons_ok w he, List.find?_cons_of_pos (by simp [hw])]
        refine iff_of_false ?_ (by simpa using hch)
        rintro ⟨r, n, hr⟩
        cases hr' : scan (step cc) q w with
        | more r' => rw [hr'] at hr; cases hr
        | stopped r' e m =>
          rw [hr'] at hr hsat
          cases hr
          exact hsat rfl
      · rw [scan_cons_error w he, List.find?_cons_of_pos (by simp [hw])]
        refine iff_of_false ?_ (by simpa using hch)
        rintro ⟨r, n, hr⟩
        cases hr

theorem ofResult_undefined {n : Nat} {r : Result Parser Stop} :
    Outcome.ofResult n r = .undefined ↔ ∃ q k, r = .stopped q none k := by
  rcases r with q | ⟨q, _ | ec, k⟩ <;> simp [Outcome.ofResult]

theorem parse_undefined_iff (cc : CharConv) (root : Container) (maxLevels : Option Nat) (w : Str) :
    parse cc (Parser.init root maxLevels) w = .undefined ↔
      w.find? (fun ch => !isWhitespace ch) = some Delimiters.endArray := by
  rw [parse_eq_scan, ofResult_undefined, atTop_scan cc ⟨rfl, rfl⟩]

end Jopp
