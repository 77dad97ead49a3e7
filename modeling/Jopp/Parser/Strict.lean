import Jopp.Parser.Chunks
import Jopp.Parser.Load

/-!
# Jopp.Parser.Strict

In state `value` the parser hands `]` to `after_value_array` without looking at the open container,
so `]` may end an object after a colon. `strictStep` is `coreStep` with that one case made an error.
Up to the first misplaced `]` the two agree (`strict_scan`), and what the strict machine does on the
tokens of a document is described here, one lemma for each token.
-/

namespace Jopp

open Resumable

def Parser.inArray (p : Parser) : Bool :=
  match p.contexts with
  | [] => false
  | top :: _ => decide (top.value.kind = .array)

/-- A `]` that ends no array, where a value is due. -/
def Misplaced (p : Parser) (ch : Byte) : Prop :=
  p.currentState = .value ∧ p.inArray = false ∧ ch = Delimiters.endArray

instance (p : Parser) (ch : Byte) : Decidable (Misplaced p ch) :=
  inferInstanceAs (Decidable (_ ∧ _))

def strictStep (cc : CharConv) (p : Parser) (ch : Byte) : Move Parser Stop :=
  if Misplaced p ch then .stop p (some .illegalDelimiter) else coreStep cc p ch

/-! ## Beside the parser -/

theorem back_not_misplaced {cc : CharConv} {p q : Parser} {ch : Byte}
    (h : coreStep cc p ch = .back q) : ¬ Misplaced q ch := by
  intro hm
  rcases pass_back_state (toMove_eq_back h) with hq | hq <;> rw [hm.1] at hq <;> cases hq

theorem strictStep_settles (cc : CharConv) : Settles (strictStep cc) := by
  intro p ch q h r h'
  have hstep : ∀ {p q : Parser}, strictStep cc p ch = .back q → coreStep cc p ch = .back q := by
    intro p q h
    unfold strictStep at h
    split at h
    · cases h
    · exact h
  exact coreStep_settles cc p ch q (hstep h) r (hstep h')

/-- The strict machine agrees with the parser, or stops at the first misplaced `]`. -/
theorem strict_scan (cc : CharConv) (p : Parser) (w : Str) :
    scan (strictStep cc) p w = scan (coreStep cc) p w ∨
      ∃ u v q, w = u ++ Delimiters.endArray :: v ∧ scan (coreStep cc) p u = .more q ∧
        scan (strictStep cc) p u = .more q ∧ q.currentState = .value ∧ q.inArray = false ∧
        scan (strictStep cc) p w = .stopped q (some .illegalDelimiter) (u.length + 1) := by
  have hagree : ∀ s a, ¬ Misplaced s a → strictStep cc (id s) a = (coreStep cc s a).map id := by
    intro s a hE
    rw [Move.map_id]
    exact if_neg hE
  rcases scan_map_until (f := id) (E := Misplaced) hagree
    (fun p ch q (h : coreStep cc p ch = .back q) => back_not_misplaced h) p w with
    h | ⟨u, a, v, q, hw, hu, hu', hE⟩
  · rw [Result.map_id] at h
    exact .inl h
  · have ha := hE.2.2
    subst ha
    have hread : scan (strictStep cc) p u = .more q := hu'
    refine .inr ⟨u, v, q, hw, hu, hread, hE.1, hE.2.1, ?_⟩
    have hstop : eat (strictStep cc) q Delimiters.endArray =
        .error (q, some .illegalDelimiter) := eat_stop (if_pos hE)
    rw [hw, scan_append_more hread, scan_cons_error v hstop]
    rfl

/-- A stop of the strict machine is one of the parser, unless it is at a misplaced `]`. -/
theorem returned_of_strict {cc : CharConv} {p q : Parser} {w : Str} {ec : ParserErrorCode} {n : Nat}
    (h : scan (strictStep cc) p.core w = .stopped q (some ec) n)
    (hec : ec = .illegalDelimiter → q.currentState ≠ .value) :
    ∃ r, parse cc p w = .returned ⟨n, ec, r.line, r.col⟩ r ∧ r.core = q := by
  rcases strict_scan cc p.core w with hrun | ⟨u, v, q', -, -, -, hs, -, hrun⟩
  · rw [h, scan_core] at hrun
    cases hr : scan (step cc) p w with
    | more r =>
      rw [hr] at hrun
      cases hrun
    | stopped r e m =>
      rw [hr] at hrun
      cases hrun
      exact ⟨r, parse_of_stopped hr, rfl⟩
  · rw [h] at hrun
    cases hrun
    exact absurd hs (hec rfl)

theorem more_of_strict {cc : CharConv} {p q : Parser} {w : Str}
    (h : scan (strictStep cc) p.core w = .more q) :
    ∃ r, parse cc p w = .returned ⟨w.length, .moreDataNeeded, r.line, r.col⟩ r ∧ r.core = q := by
  rcases strict_scan cc p.core w with hrun | ⟨u, v, q', -, -, -, -, -, hrun⟩
  · rw [h, scan_core] at hrun
    cases hr : scan (step cc) p w with
    | more r =>
      rw [hr] at hrun
      cases hrun
      exact ⟨r, parse_of_more hr, rfl⟩
    | stopped r e m =>
      rw [hr] at hrun
      cases hrun
  · rw [h] at hrun
    cases hrun

theorem parse_of_strict {cc : CharConv} {root : Container} {maxLevels : Option Nat} {w : Str}
    {q : Parser} {ec : ParserErrorCode} {n : Nat}
    (h : scan (strictStep cc) (Parser.init root maxLevels) w = .stopped q (some ec) n)
    (hec : ec = .illegalDelimiter → q.currentState ≠ .value) :
    ∃ r, parse cc (Parser.init root maxLevels) w = .returned ⟨n, ec, r.line, r.col⟩ r ∧
      r.core = q := by
  rw [← Parser.core_init] at h
  exact returned_of_strict h hec

theorem parse_of_strict_more {cc : CharConv} {root : Container} {maxLevels : Option Nat} {w : Str}
    {q : Parser} (h : scan (strictStep cc) (Parser.init root maxLevels) w = .more q) :
    ∃ r, parse cc (Parser.init root maxLevels) w =
      .returned ⟨w.length, .moreDataNeeded, r.line, r.col⟩ r := by
  rw [← Parser.core_init] at h
  obtain ⟨r, hr, -⟩ := more_of_strict h
  exact ⟨r, hr⟩

/-! ## One byte of the strict machine -/

section

variable {cc : CharConv} {p q : Parser} {ch : Byte}

theorem eat_brk (hm : ¬ Misplaced p ch) (h : pass cc p ch = .brk q) :
    eat (strictStep cc) p ch = .ok q :=
  eat_next (by rw [strictStep, if_neg hm, coreStep, h]; rfl)

theorem eat_ret {ec : ParserErrorCode} (hm : ¬ Misplaced p ch) (h : pass cc p ch = .ret q ec) :
    eat (strictStep cc) p ch = .error (q, some ec) :=
  eat_stop (by rw [strictStep, if_neg hm, coreStep, h]; rfl)

theorem eat_brkBack (hm : ¬ Misplaced p ch) (h : pass cc p ch = .brkBack q) :
    eat (strictStep cc) p ch = eat (strictStep cc) q ch :=
  eat_back (strictStep_settles cc) (by rw [strictStep, if_neg hm, coreStep, h]; rfl)

theorem not_misplaced_of_state (h : p.currentState ≠ .value) : ¬ Misplaced p ch :=
  fun hm => h hm.1

theorem not_misplaced_of_ne (h : ch ≠ Delimiters.endArray) : ¬ Misplaced p ch :=
  fun hm => h hm.2.2

end

/-! ## Places between tokens -/

/-- The parser in the given state with the given contexts, and nothing in its buffer. -/
def Parser.enter (p : Parser) (s : ParserState) (contexts : List ParserContext) : Parser :=
  { p with currentState := s, contexts := contexts, buffer := [] }

def Parser.reading (p : Parser) (s : ParserState) (contexts : List ParserContext) (w : Str) :
    Parser :=
  { p with currentState := s, contexts := contexts, buffer := w }

def Kind.start : Kind → ParserState
  | .array => .value
  | .object => .beforeKey

def Kind.afterItem : Kind → ParserState
  | .array => .afterValueArray
  | .object => .afterValueObject

/-- The depth limit allows `n` open containers. -/
def Parser.Room (p : Parser) (n : Nat) : Prop := ∀ k, p.maxLevels = some k → n ≤ k

theorem Parser.Room.mono {p : Parser} {m n : Nat} (h : p.Room n) (hle : m ≤ n) : p.Room m :=
  fun k hk => Nat.le_trans hle (h k hk)

theorem storeValue_nextState (parent : ParserContext) (val : Value) :
    (storeValue parent val).2.nextState = parent.value.kind.afterItem ∧
      (storeValue parent val).1.value.kind = parent.value.kind := by
  rcases storeValue_kind parent val with ⟨_, _, hp, hv, hs⟩ | ⟨_, _, hp, hv, hs⟩ <;>
  · rw [hs, hp, hv]
    exact ⟨rfl, rfl⟩

/-- What the branches that store a value do once it is accepted. -/
theorem put_of_accept {p : Parser} {key : Str} {c c' : Container} {rest : List ParserContext}
    {val : Value} (h : c.accept key val = some c') :
    { p.put ⟨key, c⟩ rest val with buffer := [] } =
      p.enter c'.kind.afterItem (⟨[], c'⟩ :: rest) := by
  have hkind := accept_kind h
  unfold Container.accept at h
  split at h
  · cases h
  · cases h
    have hctx : (storeValue ⟨key, c⟩ val).1 = ⟨[], (storeValue ⟨key, c⟩ val).1.value⟩ :=
      (storeValue_moved _ _).symm
    unfold Parser.put Parser.enter
    rw [(storeValue_nextState _ _).1, hkind, ← hctx]

theorem refuses_of_accept {key : Str} {c c' : Container} {val : Value}
    (h : c.accept key val = some c') : refuses ⟨key, c⟩ val = false ∨ val.isArray = true := by
  unfold Container.accept at h
  split at h
  · cases h
  · rename_i hn
    cases hr : refuses ⟨key, c⟩ val with
    | false => exact .inl rfl
    | true => exact .inr (by simpa [hr] using hn)

theorem refuses_of_accept_none {key : Str} {c : Container} {val : Value}
    (h : c.accept key val = none) :
    refuses ⟨key, c⟩ val = true ∧ val.isArray = false ∧ (storeValue ⟨key, c⟩ val).1 = ⟨[], c⟩ := by
  unfold Container.accept at h
  split at h
  · rename_i hr
    refine ⟨hr.1, hr.2, ?_⟩
    rw [← storeValue_moved, storeValue_refused hr.1]
  · cases h

/-! ## Tokens -/

section

variable {cc : CharConv} {p : Parser} {cs rest : List ParserContext} {key : Str}
  {c c' : Container} {val : Value} {ch : Byte}

theorem eat_blank {s : ParserState} (hs : s.skipsBlanks = true) (h : isWhitespace ch = true) :
    eat (strictStep cc) (p.enter s cs) ch = .ok (p.enter s cs) := by
  have hne : ch ≠ Delimiters.endArray := by
    rintro rfl
    cases h
  refine eat_brk (not_misplaced_of_ne hne) ?_
  rcases whitespace_cases h with rfl | rfl | rfl | rfl <;> cases s <;> first | rfl | cases hs

theorem eat_open (k : Kind) (hroom : p.Room (cs.length + 1)) :
    eat (strictStep cc) (p.enter .value cs) k.opener =
      .ok (p.enter k.start (⟨[], k.empty⟩ :: cs)) := by
  have hd : (p.enter .value cs).tooDeep = false := by
    refine Bool.eq_false_iff.mpr fun hd => ?_
    have := hroom cs.length (by simpa [Parser.tooDeep, Parser.enter] using hd)
    omega
  cases k with
  | array =>
    refine eat_brk (not_misplaced_of_ne (by decide)) ?_
    show onValue _ _ = _
    simp only [onValue, Kind.opener, if_true, hd]
    rfl
  | object =>
    refine eat_brk (not_misplaced_of_ne (by decide)) ?_
    show onValue _ _ = _
    simp only [onValue, Kind.opener, if_true, hd]
    rfl

theorem eat_comma (k : Kind) :
    eat (strictStep cc) (p.enter k.afterItem cs) Delimiters.valueSeparator =
      .ok (p.enter k.start cs) := by
  cases k <;> exact eat_brk (not_misplaced_of_ne (by decide)) rfl

/-- Where an item may start, the closing delimiter does what it does after an item. -/
theorem eat_close_start (k : Kind) (hc : c.kind = k) :
    eat (strictStep cc) (p.enter k.start (⟨key, c⟩ :: rest)) k.closer =
      eat (strictStep cc) (p.enter k.afterItem (⟨key, c⟩ :: rest)) k.closer := by
  cases k with
  | array =>
    refine eat_brkBack (fun hm => ?_) rfl
    have := hm.2.1
    simp [Parser.inArray, Parser.enter, hc] at this
  | object => exact eat_brkBack (not_misplaced_of_ne (by decide)) rfl

theorem afterItem_ne_value (k : Kind) : k.afterItem ≠ .value := by
  cases k <;> decide

theorem eat_close_root (k : Kind) :
    eat (strictStep cc) (p.enter k.afterItem [⟨key, c⟩]) k.closer =
      .error ({ p.enter k.afterItem [] with root := c }, some .completed) := by
  refine eat_ret (not_misplaced_of_state (afterItem_ne_value k)) ?_
  cases k <;> rfl

theorem eat_close {inner : Container} {innerKey : Str}
    (h : c.accept key (toValue inner) = some c') :
    eat (strictStep cc) (p.enter inner.kind.afterItem (⟨innerKey, inner⟩ :: ⟨key, c⟩ :: rest))
      inner.kind.closer = .ok (p.enter c'.kind.afterItem (⟨[], c'⟩ :: rest)) := by
  refine eat_brk (not_misplaced_of_state (afterItem_ne_value _)) ?_
  rw [← put_of_accept h]
  cases inner with
  | array vs => rfl
  | object ms =>
    have hr : refuses ⟨key, c⟩ (toValue (.object ms)) = false := by
      rcases refuses_of_accept h with hr | harr
      · exact hr
      · cases harr
    show onAfterValueObject (p.enter .afterValueObject
      (⟨innerKey, .object ms⟩ :: ⟨key, c⟩ :: rest)) Delimiters.endObject = _
    simp only [onAfterValueObject, Parser.enter, if_true, storeContainer, storeValue_err, hr]
    rfl

theorem eat_close_refused {inner : Container} {innerKey : Str}
    (h : c.accept key (toValue inner) = none) :
    eat (strictStep cc) (p.enter inner.kind.afterItem (⟨innerKey, inner⟩ :: ⟨key, c⟩ :: rest))
      inner.kind.closer =
        .error (p.enter inner.kind.afterItem (⟨[], c⟩ :: rest), some .keyAlreadyExists) := by
  obtain ⟨hr, harr, hstored⟩ := refuses_of_accept_none h
  refine eat_ret (not_misplaced_of_state (afterItem_ne_value _)) ?_
  cases inner with
  | array vs => cases harr
  | object ms =>
    show onAfterValueObject (p.enter .afterValueObject
      (⟨innerKey, .object ms⟩ :: ⟨key, c⟩ :: rest)) Delimiters.endObject = _
    simp only [onAfterValueObject, Parser.enter, if_true, storeContainer, storeValue_err, hr,
      hstored]
    rfl

theorem eat_key_open :
    eat (strictStep cc) (p.enter .beforeKey cs) Delimiters.stringBeginEnd =
      .ok (p.reading .key cs []) :=
  eat_brk (not_misplaced_of_ne (by decide)) rfl

theorem eat_key_close {w : Str} :
    eat (strictStep cc) (p.reading .key (⟨key, c⟩ :: rest) w) Delimiters.stringBeginEnd =
      .ok (p.enter .beforeValue (⟨w, c⟩ :: rest)) :=
  eat_brk (not_misplaced_of_ne (by decide)) rfl

theorem eat_colon :
    eat (strictStep cc) (p.enter .beforeValue cs) Delimiters.nameSeparator =
      .ok (p.enter .value cs) :=
  eat_brk (not_misplaced_of_ne (by decide)) rfl

theorem not_misplaced_reading {s : ParserState} {w : Str} (hs : s ≠ .value) :
    ¬ Misplaced (p.reading s cs w) ch := not_misplaced_of_state hs

/-! ### Strings -/

variable {s escState : ParserState} {w : Str}

theorem eat_raw (hs : Quoted s escState) (h : charShouldBeEscaped ch = false) :
    eat (strictStep cc) (p.reading s cs w) ch = .ok (p.reading s cs (w ++ [ch])) := by
  obtain ⟨hquote, hback⟩ := raw_ne h
  refine eat_brk (not_misplaced_reading hs.ne_value.1) ?_
  cases hs
  · show onQuoted _ _ _ _ = _
    rw [onQuoted, if_neg hquote, if_neg hback, h]
    rfl
  · show onQuoted _ _ _ _ = _
    rw [onQuoted, if_neg hquote, if_neg hback, h]
    rfl

theorem eat_backslash (hs : Quoted s escState) :
    eat (strictStep cc) (p.reading s cs w) beginEscSeq = .ok (p.reading escState cs w) := by
  cases hs <;> exact eat_brk (not_misplaced_of_ne (by decide)) rfl

theorem eat_escaped (hs : Quoted s escState) {escChar : Byte} (h : unescape escChar = some ch) :
    eat (strictStep cc) (p.reading escState cs w) escChar = .ok (p.reading s cs (w ++ [ch])) := by
  refine eat_brk (not_misplaced_reading hs.ne_value.2) ?_
  cases hs
  · show onEscSeq _ _ _ = _
    rw [onEscSeq, h]
    rfl
  · show onEscSeq _ _ _ = _
    rw [onEscSeq, h]
    rfl

theorem eat_string_open {top : ParserContext} :
    eat (strictStep cc) (p.enter .value (top :: rest)) Delimiters.stringBeginEnd =
      .ok (p.reading .stringValue (top :: rest) []) :=
  eat_brk (not_misplaced_of_ne (by decide)) rfl

theorem eat_string_close (h : c.accept key (.string w) = some c') :
    eat (strictStep cc) (p.reading .stringValue (⟨key, c⟩ :: rest) w) Delimiters.stringBeginEnd =
      .ok (p.enter c'.kind.afterItem (⟨[], c'⟩ :: rest)) := by
  have hr : refuses ⟨key, c⟩ (.string w) = false := by
    rcases refuses_of_accept h with hr | harr
    · exact hr
    · cases harr
  refine eat_brk (not_misplaced_of_ne (by decide)) ?_
  rw [← put_of_accept h]
  show closeStringValue (p.reading .stringValue (⟨key, c⟩ :: rest) w) = _
  simp only [closeStringValue, Parser.reading, storeValue_err, storeValue_moved, hr]
  rfl

theorem eat_string_refused (h : c.accept key (.string w) = none) :
    eat (strictStep cc) (p.reading .stringValue (⟨key, c⟩ :: rest) w) Delimiters.stringBeginEnd =
      .error (p.reading .stringValue (⟨[], c⟩ :: rest) w, some .keyAlreadyExists) := by
  obtain ⟨hr, -, hstored⟩ := refuses_of_accept_none h
  refine eat_ret (not_misplaced_of_ne (by decide)) ?_
  show closeStringValue (p.reading .stringValue (⟨key, c⟩ :: rest) w) = _
  simp only [closeStringValue, Parser.reading, storeValue_err, hr, hstored]
  rfl

/-! ### Literals -/

theorem eat_literal_first {top : ParserContext} (h : isPlain ch = true) :
    eat (strictStep cc) (p.enter .value (top :: rest)) ch =
      .ok (p.reading .literal (top :: rest) [ch]) := by
  obtain ⟨hw, ha, ho, hea, -, -, hq⟩ := plain_ne h
  refine eat_brk (not_misplaced_of_ne hea) ?_
  show onValue _ _ = _
  simp only [onValue, ha, ho, hea, hq, hw, if_false]
  rfl

theorem eat_literal_char (h : isPlain ch = true) :
    eat (strictStep cc) (p.reading .literal cs w) ch = .ok (p.reading .literal cs (w ++ [ch])) := by
  obtain ⟨hw, -, -, hea, heo, hv, -⟩ := plain_ne h
  refine eat_brk (not_misplaced_reading (by decide)) ?_
  show onLiteral _ _ _ = _
  simp only [onLiteral, hw, hea, heo, hv, Bool.false_eq_true, or_self, if_false]
  rfl

/-- The byte that ends a literal is treated as after the item. -/
theorem eat_literal_end (hval : makeValue cc w = some val) (h : c.accept key val = some c')
    (hch : endsLiteral ch) (rest : List ParserContext) :
    eat (strictStep cc) (p.reading .literal (⟨key, c⟩ :: rest) w) ch =
      eat (strictStep cc) (p.enter c'.kind.afterItem (⟨[], c'⟩ :: rest)) ch := by
  have hr : refuses ⟨key, c⟩ val = false := by
    rcases refuses_of_accept h with hr | harr
    · exact hr
    · rcases makeValue_cases hval with ⟨-, rfl⟩ | ⟨-, rfl⟩ | ⟨-, rfl⟩ | ⟨x, -, rfl⟩ <;> cases harr
  have hpass : pass cc (p.reading .literal (⟨key, c⟩ :: rest) w) ch =
      if !isWhitespace ch then .brkBack (p.enter c'.kind.afterItem (⟨[], c'⟩ :: rest))
      else .brk (p.enter c'.kind.afterItem (⟨[], c'⟩ :: rest)) := by
    rw [← put_of_accept h]
    show onLiteral _ _ _ = _
    unfold endsLiteral at hch
    rw [onLiteral, if_pos hch]
    simp only [Parser.reading, storeLiteral, hval, storeValue_err, storeValue_moved, hr]
    rfl
  cases hw : isWhitespace ch with
  | true =>
    rw [hw] at hpass
    have hskips : c'.kind.afterItem.skipsBlanks = true := by cases c'.kind <;> rfl
    rw [eat_brk (not_misplaced_reading (by decide)) hpass, eat_blank hskips hw]
  | false =>
    rw [hw] at hpass
    exact eat_brkBack (not_misplaced_reading (by decide)) hpass

theorem eat_literal_refused (hval : makeValue cc w = some val) (h : c.accept key val = none)
    (hch : endsLiteral ch) :
    eat (strictStep cc) (p.reading .literal (⟨key, c⟩ :: rest) w) ch =
      .error (p.reading .literal (⟨[], c⟩ :: rest) w, some .keyAlreadyExists) := by
  obtain ⟨hr, -, hstored⟩ := refuses_of_accept_none h
  refine eat_ret (not_misplaced_reading (by decide)) ?_
  show onLiteral _ _ _ = _
  unfold endsLiteral at hch
  rw [onLiteral, if_pos hch]
  simp only [Parser.reading, storeLiteral, hval, storeValue_err, hr, hstored]
  rfl

end

end Jopp
