import Jopp.Parser.Accepts
import Mathlib.Algebra.Order.BigOperators.Group.List

/-!
# Jopp.Parser.Viable

When the text a parser has read without an error can still become a document. The parser notices
most mistakes at the byte that makes them. Where it goes on although nothing can follow any more,
the literal under way is the beginning of none, or the key of a member is taken and its value can
no longer be an array (`Parser.Viable`).

* `viable_of_finish`: no other state leads to the end of a document, by the backward rule.
* `finish_of_viable`: from any other state there is a text that does.
* `viable_prefix_iff`: the two, about runs of the parser.
-/

namespace Jopp

open Resumable

def ParserContext.taken (context : ParserContext) : Bool := refuses context .null

/-- Each container around one of kind `k` can take in what it contains. -/
def Usable (k : Kind) : List ParserContext → Prop
  | [] => True
  | parent :: rest => (parent.taken = true → k = .array) ∧ Usable parent.value.kind rest

def BeginsLiteral (cc : CharConv) (buffer : Str) : Prop :=
  ∃ w val, Literal cc (buffer ++ w) val

/-- The item under way can be finished and stored in `top`. Under a taken key only an array is let
through. -/
def Parser.Finishable (cc : CharConv) (p : Parser) (top : ParserContext) : Prop :=
  match p.currentState with
  | .beforeValue | .value => top.taken = true → p.tooDeep = false
  | .literal => top.taken = false ∧ BeginsLiteral cc p.buffer
  | .stringValue | .stringValueEscSeq => top.taken = false
  | .beforeKey | .key | .keyEscSeq | .afterValueObject | .afterValueArray => True

def Parser.Viable (cc : CharConv) (p : Parser) : Prop :=
  match p.contexts with
  | [] => p.tooDeep = false
  | top :: rest => p.Finishable cc top ∧ Usable top.value.kind rest

section

variable {cc : CharConv} {p q : Parser} {ch : Byte} {top : ParserContext}
  {rest : List ParserContext}

theorem refuses_eq_taken (context : ParserContext) (val : Value) :
    refuses context val = context.taken := by
  unfold ParserContext.taken refuses
  cases context.value with
  | object ms => simp only [SortedMap.insert_snd_congr context.key val .null ms]
  | array vs => rfl

theorem taken_of_array (h : top.value.kind = .array) : top.taken = false := by
  obtain ⟨key, value⟩ := top
  cases value with
  | object ms => cases h
  | array vs => rfl

theorem viable_nil (hc : p.contexts = []) : p.Viable cc ↔ p.tooDeep = false := by
  unfold Parser.Viable
  rw [hc]

theorem viable_cons (hc : p.contexts = top :: rest) :
    p.Viable cc ↔ p.Finishable cc top ∧ Usable top.value.kind rest := by
  unfold Parser.Viable
  rw [hc]

/-! ## No other state leads to the end of a document -/

/-- A pass leads to a viable parser from a viable one only. -/
def Restores (cc : CharConv) (p : Parser) : Flow → Prop
  | .brk q => q.Viable cc → p.Viable cc
  | .brkBack q => q.Viable cc → p.Viable cc
  | .ret _ ec => ec = .completed → p.Viable cc
  | .undefined => True

theorem finishable_after {s : ParserState} (hs : p.currentState = s)
    (h : s = .afterValueObject ∨ s = .afterValueArray ∨ s = .beforeKey ∨ s = .key ∨
      s = .keyEscSeq) : p.Finishable cc top := by
  unfold Parser.Finishable
  rw [hs]
  rcases h with rfl | rfl | rfl | rfl | rfl <;> trivial

theorem usable_of_viable (h : p.Viable cc) (hc : p.contexts = top :: rest) :
    Usable top.value.kind rest := ((viable_cons hc).mp h).2

theorem usable_of_put (val : Value) (h : q.Viable cc)
    (hq : q.contexts = (storeValue top val).1 :: rest) : Usable top.value.kind rest := by
  have husable := usable_of_viable h hq
  rwa [(storeValue_nextState top val).2] at husable

theorem viable_of_same (hq : q.contexts = p.contexts) (hne : p.contexts ≠ [])
    (h : ∀ top rest, p.contexts = top :: rest → q.Finishable cc top → p.Finishable cc top) :
    q.Viable cc → p.Viable cc := by
  intro hv
  obtain ⟨top, rest, hc⟩ := List.exists_cons_of_ne_nil hne
  rw [viable_cons (hq.trans hc)] at hv
  exact (viable_cons hc).mpr ⟨h top rest hc hv.1, hv.2⟩

theorem viable_of_open {k : Kind} (hs : p.currentState = .value) (hd : p.tooDeep = false)
    (hq : q.contexts = ⟨[], k.empty⟩ :: p.contexts) : q.Viable cc → p.Viable cc := by
  intro hv
  have husable := usable_of_viable hv hq
  rw [kind_empty] at husable
  cases hc : p.contexts with
  | nil => exact (viable_nil hc).mpr hd
  | cons top rest =>
    rw [hc] at husable
    refine (viable_cons hc).mpr ⟨?_, husable.2⟩
    unfold Parser.Finishable
    rw [hs]
    exact fun _ => hd

theorem Parser.Consistent.contexts_ne {s : ParserState} (h : p.Consistent)
    (hs : p.currentState = s) (hv : s ≠ .value) : p.contexts ≠ [] :=
  fun hc => h.kinds_ne hs hv (by unfold Parser.kinds; rw [hc]; rfl)

theorem branch_restores {flow : Flow} (hcons : p.Consistent) (hm : ¬ Misplaced p ch)
    (hb : Branch cc p ch flow) : Restores cc p flow := by
  cases hb with
  | blank hs hch => exact id
  | openArray hs hch hd => exact viable_of_open (k := .array) hs hd rfl
  | openObject hs hch hd => exact viable_of_open (k := .object) hs hd rfl
  | endInValue hs hch =>
    intro hv
    -- the byte is not misplaced, so an array is open
    cases hc : p.contexts with
    | nil => exact absurd ⟨hs, by simp [Parser.inArray, hc], hch⟩ hm
    | cons top rest =>
      have harr : top.value.kind = .array := by
        by_contra harr
        exact hm ⟨hs, by simp [Parser.inArray, hc, harr], hch⟩
      refine (viable_cons hc).mpr ⟨?_, usable_of_viable hv hc⟩
      unfold Parser.Finishable
      rw [hs]
      intro htaken
      rw [taken_of_array harr] at htaken
      cases htaken
  | openString hs hch hc =>
    refine viable_of_same rfl hc fun top rest _ h => ?_
    unfold Parser.Finishable
    rw [hs]
    intro htaken
    have hfree : top.taken = false := h
    rw [hfree] at htaken
    cases htaken
  | openLiteral hs hch ha ho he hq hc =>
    refine viable_of_same rfl hc fun top rest _ h => ?_
    unfold Parser.Finishable
    rw [hs]
    intro htaken
    have hfree : top.taken = false := h.1
    rw [hfree] at htaken
    cases htaken
  | literalChar hs hch =>
    refine viable_of_same rfl (hcons.contexts_ne hs (by decide)) fun top rest _ h => ?_
    unfold Parser.Finishable at h ⊢
    simp only [hs] at h ⊢
    obtain ⟨hfree, w, val, hval⟩ := h
    exact ⟨hfree, ch :: w, val, by rwa [List.append_assoc] at hval⟩
  | literalBlank hs hch hc hv hr | literalBack hs hch hw hc hv hr =>
    rename_i top rest val
    intro hviable
    refine (viable_cons hc).mpr ⟨?_, usable_of_put val hviable rfl⟩
    unfold Parser.Finishable
    rw [hs]
    refine ⟨by rw [← refuses_eq_taken top val, hr], [], val, ?_⟩
    rw [List.append_nil]
    exact hv
  | rawChar hs hch =>
    refine viable_of_same rfl (hcons.contexts_ne rfl hs.ne_value.1) fun top rest _ h => ?_
    unfold Parser.Finishable at h ⊢
    generalize p.currentState = s at hs h ⊢
    cases hs <;> exact h
  | beginEsc hs hch =>
    refine viable_of_same rfl (hcons.contexts_ne rfl hs.ne_value.1) fun top rest _ h => ?_
    unfold Parser.Finishable at h ⊢
    generalize p.currentState = s at hs h ⊢
    cases hs <;> exact h
  | escChar hs hch =>
    refine viable_of_same rfl (hcons.contexts_ne rfl hs.ne_value.2) fun top rest _ h => ?_
    unfold Parser.Finishable at h ⊢
    generalize p.currentState = s at hs h ⊢
    cases hs <;> exact h
  | closeString hs hch hc hr =>
    rename_i top rest
    intro hviable
    refine (viable_cons hc).mpr ⟨?_, usable_of_put (.string p.buffer) hviable rfl⟩
    unfold Parser.Finishable
    rw [hs]
    exact (refuses_eq_taken top (.string p.buffer)).symm.trans hr
  | openKey hs hch | endInBeforeKey hs hch | commaObject hs hch =>
    exact viable_of_same rfl (hcons.contexts_ne hs (by decide)) fun top rest _ _ =>
      finishable_after hs (by simp)
  | closeKey hs hch hc =>
    intro hviable
    exact (viable_cons hc).mpr ⟨finishable_after hs (by simp), hviable.2⟩
  | colon hs hch =>
    refine viable_of_same rfl (hcons.contexts_ne hs (by decide)) fun top rest _ h => ?_
    unfold Parser.Finishable at h ⊢
    rw [hs]
    exact h
  | commaArray hs hch =>
    exact viable_of_same rfl (hcons.contexts_ne hs (by decide)) fun top rest _ _ =>
      finishable_after hs (by simp)
  | closeContainer hs hc hr =>
    rename_i current top rest
    intro hviable
    refine (viable_cons hc).mpr ⟨?_, fun htaken => ?_,
      usable_of_put (toValue current.value) hviable rfl⟩
    · generalize hstate : p.currentState = s at hs
      cases hs <;> exact finishable_after hstate (by simp)
    · rcases hr with hs' | hr
      · have hstack := hcons.stack
        rw [kinds_cons hc] at hstack
        exact hstack.2 hs'
      · rw [refuses_eq_taken, htaken] at hr
        cases hr
  | closeRoot hs hc =>
    intro _
    refine (viable_cons hc).mpr ⟨?_, trivial⟩
    generalize hstate : p.currentState = s at hs
    cases hs <;> exact finishable_after hstate (by simp)
  | tooDeep | leafAtTop | literalInvalid | literalRefused | rawIllegal | escIllegal | stringRefused
  | illegal | closeRefused =>
    intro hec
    cases hec
  | literalEmpty | stringEmpty | keyEmpty | closeEmpty => exact trivial

/-- Some continuation leads the strict machine to the end of a document. -/
def CanFinish (cc : CharConv) (p : Parser) : Prop :=
  ∃ w q n, scan (strictStep cc) p w = .stopped q (some .completed) n

theorem viable_of_finish (hcons : p.Consistent) (h : CanFinish cc p) : p.Viable cc := by
  obtain ⟨w, q, n, hrun⟩ := h
  refine scan_backward (I := Parser.Consistent) (D := fun p _ => p.Viable cc)
    (P := fun e => e = some .completed) (fun p ch q hp hstep => ?_) (fun p ch q hp hstep => ?_)
    (fun p ch q e hp hstep he => ?_) (strictStep_settles cc) w hcons hrun rfl
  · obtain ⟨hm, hpass⟩ := strictStep_next hstep
    have hrestores := branch_restores hp hm (hpass ▸ pass_branch cc p ch)
    exact ⟨(pass_carries hp hm hpass).1, fun _ => hrestores⟩
  · obtain ⟨hm, hpass⟩ := strictStep_back hstep
    have hrestores := branch_restores hp hm (hpass ▸ pass_branch cc p ch)
    exact ⟨(pass_carries hp hm hpass).1, fun _ => hrestores⟩
  · subst he
    obtain ⟨hm, hpass⟩ := strictStep_completed hstep
    have hrestores : Restores cc p (.ret q .completed) :=
      branch_restores hp hm (hpass ▸ pass_branch cc p ch)
    exact hrestores rfl

/-! ## Any other state leads there -/

theorem CanFinish.cons (h : eat (strictStep cc) p ch = .ok q) (hq : CanFinish cc q) :
    CanFinish cc p := by
  obtain ⟨w, t, n, hrun⟩ := hq
  exact ⟨ch :: w, t, 1 + n, by rw [scan_cons_ok w h, hrun]; rfl⟩

theorem CanFinish.reads {w : Str} (h : ∀ u, Reads (strictStep cc) p w q u)
    (hq : CanFinish cc q) : CanFinish cc p := by
  obtain ⟨u, t, n, hrun⟩ := hq
  exact ⟨w ++ u, t, w.length + n, by rw [h u, hrun]; rfl⟩

/-- The closing delimiter `ch` comes first on the way to the end. -/
def FinishesWith (cc : CharConv) (p : Parser) (ch : Byte) : Prop :=
  ∃ w q n, scan (strictStep cc) p (ch :: w) = .stopped q (some .completed) n

theorem FinishesWith.canFinish (h : FinishesWith cc p ch) : CanFinish cc p := by
  obtain ⟨w, hrun⟩ := h
  exact ⟨ch :: w, hrun⟩

theorem FinishesWith.congr (he : eat (strictStep cc) p ch = eat (strictStep cc) q ch)
    (h : FinishesWith cc q ch) : FinishesWith cc p ch := by
  obtain ⟨w, t, n, hrun⟩ := h
  exact ⟨w, t, n, by rw [scan_cons_congr w he, hrun]⟩

theorem accept_of_free {key : Str} {c : Container} {val : Value}
    (h : (⟨key, c⟩ : ParserContext).taken = true → val.isArray = true) :
    ∃ c', c.accept key val = some c' := by
  unfold Container.accept
  rw [refuses_eq_taken]
  split
  · rename_i hrefused
    rw [h hrefused.1] at hrefused
    cases hrefused.2
  · exact ⟨_, rfl⟩

theorem isArray_toValue (c : Container) : (toValue c).isArray = decide (c.kind = .array) := by
  cases c <;> rfl

/-- After an item the open containers can be closed one by one. -/
theorem finishesWith_closer {c : Container} {key : Str} (h : Usable c.kind rest) :
    FinishesWith cc (p.enter c.kind.afterItem (⟨key, c⟩ :: rest)) c.kind.closer := by
  induction rest generalizing c key with
  | nil => exact ⟨[], _, 1, scan_cons_error [] (eat_close_root c.kind)⟩
  | cons parent rest ih =>
    obtain ⟨key', c'⟩ := parent
    obtain ⟨c'', hacc⟩ : ∃ c'', c'.accept key' (toValue c) = some c'' :=
      accept_of_free fun htaken => by
        rw [isArray_toValue, h.1 htaken]
        rfl
    have husable : Usable c''.kind rest := by
      rw [accept_kind hacc]
      exact h.2
    have hrest : FinishesWith cc (p.enter c''.kind.afterItem (⟨[], c''⟩ :: rest)) c''.kind.closer :=
      ih husable
    obtain ⟨w, q, n, hrun⟩ := hrest
    exact ⟨_, q, 1 + n, by rw [scan_cons_ok _ (eat_close hacc), hrun]; rfl⟩

theorem finishesWith_start {c : Container} {key : Str} {k : Kind} (hk : c.kind = k)
    (h : Usable k rest) :
    FinishesWith cc (p.enter k.start (⟨key, c⟩ :: rest)) k.closer := by
  subst hk
  exact FinishesWith.congr (eat_close_start c.kind rfl) (finishesWith_closer h)

theorem eat_opener {cs : List ParserContext} (k : Kind) (hd : (p.enter .value cs).tooDeep = false) :
    eat (strictStep cc) (p.enter .value cs) k.opener =
      .ok (p.enter k.start (⟨[], k.empty⟩ :: cs)) := by
  cases k <;>
  · refine eat_brk (not_misplaced_of_ne (by decide)) ?_
    show onValue _ _ = _
    simp only [onValue, Kind.opener, if_true, hd]
    rfl

theorem canFinish_stringValue {c : Container} {key w : Str}
    (hfree : (⟨key, c⟩ : ParserContext).taken = false) (h : Usable c.kind rest) :
    CanFinish cc (p.reading .stringValue (⟨key, c⟩ :: rest) w) := by
  obtain ⟨c', hacc⟩ : ∃ c', c.accept key (.string w) = some c' := accept_of_free fun htaken => by
    rw [hfree] at htaken
    cases htaken
  have husable : Usable c'.kind rest := by
    rw [accept_kind hacc]
    exact h
  exact CanFinish.cons (eat_string_close hacc) (finishesWith_closer husable).canFinish

/-- A value that is due can be an empty string, and under a taken key an empty array. -/
theorem canFinish_value {c : Container} {key : Str}
    (hd : (⟨key, c⟩ : ParserContext).taken = true →
      (p.enter .value (⟨key, c⟩ :: rest)).tooDeep = false) (h : Usable c.kind rest) :
    CanFinish cc (p.enter .value (⟨key, c⟩ :: rest)) := by
  cases htaken : (⟨key, c⟩ : ParserContext).taken with
  | false => exact CanFinish.cons eat_string_open (canFinish_stringValue htaken h)
  | true =>
    have husable : Usable .array (⟨key, c⟩ :: rest) := ⟨fun _ => rfl, h⟩
    exact CanFinish.cons (eat_opener .array (hd htaken))
      (finishesWith_start (kind_empty .array) husable).canFinish

theorem exists_free_key (c : Container) (key : Str) :
    ∃ n, (⟨key ++ List.replicate n 0x61, c⟩ : ParserContext).taken = false := by
  cases c with
  | array vs => exact ⟨0, rfl⟩
  | object ms =>
    refine ⟨(ms.map fun kv => kv.1.length).sum + 1, ?_⟩
    by_contra hne
    have htaken : (SortedMap.insert (key ++ List.replicate
        ((ms.map fun kv => kv.1.length).sum + 1) 0x61) Value.null ms).2 = false := by
      simpa [ParserContext.taken, refuses] using hne
    obtain ⟨kv, hmem, hkey⟩ := List.mem_map.mp (SortedMap.mem_of_insert_refused htaken)
    have hle : kv.1.length ≤ (ms.map fun kv => kv.1.length).sum :=
      List.single_le_sum (fun _ _ => Nat.zero_le _) _ (List.mem_map_of_mem hmem)
    have hlen := congrArg List.length hkey
    simp only [List.length_append, List.length_replicate] at hlen
    omega

theorem canFinish_beforeValue {c : Container} {key : Str}
    (hd : (⟨key, c⟩ : ParserContext).taken = true →
      (p.enter .value (⟨key, c⟩ :: rest)).tooDeep = false) (h : Usable c.kind rest) :
    CanFinish cc (p.enter .beforeValue (⟨key, c⟩ :: rest)) :=
  CanFinish.cons eat_colon (canFinish_value hd h)

theorem canFinish_key {c : Container} {key w : Str} (h : Usable c.kind rest) :
    CanFinish cc (p.reading .key (⟨key, c⟩ :: rest) w) := by
  obtain ⟨n, hfree⟩ := exists_free_key c w
  have hbody : bodyVal (List.replicate n (.raw 0x61 rfl)) = List.replicate n 0x61 := by
    simp [bodyVal, StrChar.val]
  refine CanFinish.reads (reads_body .key (List.replicate n (.raw 0x61 rfl)) w) ?_
  rw [hbody]
  refine CanFinish.cons eat_key_close (canFinish_beforeValue (fun htaken => ?_) h)
  rw [hfree] at htaken
  cases htaken

theorem canFinish_literal (hcc : cc.Plain) {c : Container} {key w : Str}
    (hfree : (⟨key, c⟩ : ParserContext).taken = false) (hlit : BeginsLiteral cc w)
    (h : Usable c.kind rest) : CanFinish cc (p.reading .literal (⟨key, c⟩ :: rest) w) := by
  obtain ⟨w', val, hval⟩ := hlit
  obtain ⟨c', hacc⟩ : ∃ c', c.accept key val = some c' := accept_of_free fun htaken => by
    rw [hfree] at htaken
    cases htaken
  have husable : Usable c'.kind rest := by
    rw [accept_kind hacc]
    exact h
  have hplain : ∀ ch ∈ w', isPlain ch = true := fun ch hch =>
    (literal_plain hcc _ _ hval).2.2 ch (List.mem_append_right w hch)
  refine CanFinish.reads (reads_literal w' hplain w) ?_
  have hend := eat_literal_end (p := p) hval hacc (endsLiteral_closer c'.kind) rest
  exact (FinishesWith.congr hend (finishesWith_closer husable)).canFinish

theorem Parser.eq_reading {s : ParserState} {cs : List ParserContext} (hs : p.currentState = s)
    (hc : p.contexts = cs) : p = p.reading s cs p.buffer := by
  obtain ⟨line, col, state, maxLevels, contexts, buffer, root⟩ := p
  cases hs
  cases hc
  rfl

theorem Parser.Consistent.eq_enter {s : ParserState} {cs : List ParserContext} (h : p.Consistent)
    (hs : p.currentState = s) (hc : p.contexts = cs) (hskips : s.skipsBlanks = true) :
    p = p.enter s cs := by
  have hread := Parser.eq_reading hs hc
  rwa [h.noText hs hskips] at hread

/-- Inside a string, the closing quote or one more character can follow. -/
theorem canFinish_escSeq {s escState : ParserState} (hs : Quoted s escState)
    {cs : List ParserContext} {w : Str} (h : ∀ w, CanFinish cc (p.reading s cs w)) :
    CanFinish cc (p.reading escState cs w) := by
  have hlinefeed : unescape EscChars.linefeed = some 0x0a := rfl
  exact CanFinish.cons (eat_escaped hs hlinefeed) (h _)

theorem finish_of_viable (hcc : cc.Plain) (hcons : p.Consistent) (h : p.Viable cc) :
    CanFinish cc p := by
  cases hc : p.contexts with
  | nil =>
    have hs : p.currentState = .value := by
      have hstack := hcons.stack
      unfold Parser.kinds at hstack
      rw [hc] at hstack
      exact hstack
    have hp := hcons.eq_enter hs hc rfl
    have hd : (p.enter .value []).tooDeep = false := by
      rw [← hp]
      exact (viable_nil hc).mp h
    have husable : Usable .array [] := trivial
    rw [hp]
    exact CanFinish.cons (eat_opener .array hd)
      (finishesWith_start (kind_empty .array) husable).canFinish
  | cons top rest =>
    obtain ⟨key, c⟩ := top
    obtain ⟨hfinish, husable⟩ := (viable_cons hc).mp h
    have hstack := hcons.stack
    rw [kinds_cons hc] at hstack
    unfold Parser.Finishable at hfinish
    cases hs : p.currentState with
    | value =>
      rw [hs] at hfinish
      have hp := hcons.eq_enter hs hc rfl
      rw [hp] at hfinish ⊢
      exact canFinish_value hfinish husable
    | beforeValue =>
      rw [hs] at hfinish
      have hp := hcons.eq_enter hs hc rfl
      rw [hp] at hfinish ⊢
      exact canFinish_beforeValue hfinish husable
    | literal =>
      rw [hs] at hfinish
      rw [Parser.eq_reading hs hc]
      exact canFinish_literal hcc hfinish.1 hfinish.2 husable
    | stringValue =>
      rw [hs] at hfinish
      rw [Parser.eq_reading hs hc]
      exact canFinish_stringValue hfinish husable
    | stringValueEscSeq =>
      rw [hs] at hfinish
      rw [Parser.eq_reading hs hc]
      exact canFinish_escSeq .stringValue fun w => canFinish_stringValue hfinish husable
    | key =>
      rw [Parser.eq_reading hs hc]
      exact canFinish_key husable
    | keyEscSeq =>
      rw [Parser.eq_reading hs hc]
      exact canFinish_escSeq .key fun w => canFinish_key husable
    | beforeKey =>
      have hk : c.kind = .object := by
        rw [hs] at hstack
        exact hstack.1 rfl
      rw [hcons.eq_enter hs hc rfl]
      exact (finishesWith_start hk (hk ▸ husable)).canFinish
    | afterValueObject =>
      have hk : c.kind = .object := by
        rw [hs] at hstack
        exact hstack.1 rfl
      have hclose : FinishesWith cc (p.enter c.kind.afterItem (⟨key, c⟩ :: rest)) c.kind.closer :=
        finishesWith_closer husable
      rw [hk] at hclose
      rw [hcons.eq_enter hs hc rfl]
      exact hclose.canFinish
    | afterValueArray =>
      have hk : c.kind = .array := by
        rw [hs] at hstack
        exact hstack.2 rfl
      have hclose : FinishesWith cc (p.enter c.kind.afterItem (⟨key, c⟩ :: rest)) c.kind.closer :=
        finishesWith_closer husable
      rw [hk] at hclose
      rw [hcons.eq_enter hs hc rfl]
      exact hclose.canFinish

/-! ## Runs of the parser -/

theorem MembersHaveValues.mono {u w : Str} (h : MembersHaveValues w) (hu : u <+: w) :
    MembersHaveValues u := by
  obtain ⟨v, rfl⟩ := hu
  rintro u₁ u₂ rfl
  exact h u₁ (u₂ ++ v) (by simp)

theorem strict_consistent {root : Container} {maxLevels : Option Nat} {w : Str}
    (h : scan (strictStep cc) (Parser.init root maxLevels) w = .more q) : q.Consistent := by
  have hinit : (Parser.init root maxLevels).Consistent := ⟨matches_value _, fun _ => rfl⟩
  have hnext : ∀ p ch q, Parser.Consistent p → strictStep cc p ch = .next q → q.Consistent :=
    fun p ch q hp hstep => (pass_carries hp (strictStep_next hstep).1 (strictStep_next hstep).2).1
  have hback : ∀ p ch q, Parser.Consistent p → strictStep cc p ch = .back q → q.Consistent :=
    fun p ch q hp hstep => (pass_carries hp (strictStep_back hstep).1 (strictStep_back hstep).2).1
  have hsat : (scan (strictStep cc) (Parser.init root maxLevels) w).Sat Parser.Consistent
      fun _ _ => True := scan_inv_step hnext hback (fun _ _ _ _ _ _ => trivial) hinit w
  rw [h] at hsat
  exact hsat

section

variable {root : Container} {maxLevels : Option Nat}

/-- On a text whose members have values a run that goes on is one of the strict machine. -/
theorem strict_of_more (hcc : cc.Plain) {u : Str} (hvalues : MembersHaveValues u)
    (h : scan (step cc) (Parser.init root maxLevels) u = .more p) :
    scan (strictStep cc) (Parser.init root maxLevels) u = .more p.core := by
  have hcore := scan_core cc (Parser.init root maxLevels) u
  rw [h, Parser.core_init] at hcore
  rcases strict_scan cc (Parser.init root maxLevels) u with
    heq | ⟨u', v, r, hw, hu', hstrict, hs, harr, -⟩
  · rw [heq, hcore]
    rfl
  · exfalso
    rcases (agrees_value hs).mp (strict_agrees hcc hstrict) with ⟨-, hc | harr'⟩ | ⟨hplace, -⟩
    · -- at the top the parser would be undefined
      rw [← Parser.core_init root maxLevels, scan_core] at hu'
      cases hmore : scan (step cc) (Parser.init root maxLevels) u' with
      | stopped r e m =>
        rw [hmore] at hu'
        cases hu'
      | more r =>
        rw [hmore] at hu'
        cases hu'
        obtain ⟨r', heat⟩ := atTop_endArray cc (p := r) ⟨hs, hc⟩
        rw [hw, scan_append_more hmore, scan_cons_error v heat] at h
        cases h
    · rw [harr] at harr'
      cases harr'
    · exact hvalues u' v hw hplace

theorem strict_of_completed (hcc : cc.Plain) {w : Str} {n : Nat} (hvalues : MembersHaveValues w)
    (h : scan (step cc) (Parser.init root maxLevels) w = .stopped p (some .completed) n) :
    scan (strictStep cc) (Parser.init root maxLevels) w =
      .stopped p.core (some .completed) n := by
  have hcore := scan_core cc (Parser.init root maxLevels) w
  rw [h, Parser.core_init] at hcore
  rcases strict_scan cc (Parser.init root maxLevels) w with
    heq | ⟨u, v, r, hw, hu, hu', hs, harr, -⟩
  · rw [heq, hcore]
    rfl
  · rw [hw] at h
    exact absurd (misplaced_afterColon hcc h hu' hu hs harr) (hvalues u v hw)

/-- The text can be continued to a document on which the parser completes. -/
def Continues (cc : CharConv) (root : Container) (maxLevels : Option Nat) (u : Str) : Prop :=
  ∃ (d : Document (Literal cc)) (res : ParseResult) (q : Parser), u <+: d.text ∧
    parse cc (Parser.init root maxLevels) d.text = .returned res q ∧ res.ec = .completed

/-- **Viable prefixes.** Where a parser asks for more data, what it has read is the beginning of a
document on which it completes, exactly if no `]` in it stands for the value of a member and the
parser is viable: the key of a member whose value is under way is not taken, unless that value is
or can still be an array (which takes a level that is left), the literal under way is the beginning
of one, and with nothing read yet there is a level for a container at all. -/
theorem viable_prefix_iff (cc : CharConv) (hcc : cc.Plain) (root : Container)
    (maxLevels : Option Nat) (chunks : List Str) (res : ParseResult) (p : Parser)
    (h : parseChunks cc (Parser.init root maxLevels) chunks = .returned res p)
    (hec : res.ec = .moreDataNeeded) :
    Continues cc root maxLevels chunks.flatten ↔
      MembersHaveValues chunks.flatten ∧ p.Viable cc := by
  rw [parseChunks_eq_parse] at h
  have hmore : scan (step cc) (Parser.init root maxLevels) chunks.flatten = .more p := by
    rcases returned_cases h with ⟨hmore, -⟩ | ⟨-, hne, -⟩
    · exact hmore
    · exact absurd hec hne
  constructor
  · rintro ⟨d, res', q, ⟨v, htext⟩, hrun, hcompleted⟩
    obtain ⟨t, ht⟩ := strict_document (literal_plain hcc) d hrun hcompleted
    have hvalues := document_membersHaveValues hcc d ht
    have hprefix : chunks.flatten <+: d.text := ⟨v, htext⟩
    refine ⟨hvalues.mono hprefix, ?_⟩
    have hstrict := strict_of_more hcc (hvalues.mono hprefix) hmore
    have hstop := strict_of_completed hcc hvalues (stopped_of_completed hrun hcompleted)
    rw [← htext, scan_append_more hstrict] at hstop
    have hfinish : CanFinish cc p.core := by
      cases hrest : scan (strictStep cc) p.core v with
      | more r =>
        rw [hrest] at hstop
        cases hstop
      | stopped r e m =>
        rw [hrest] at hstop
        obtain ⟨-, rfl, -⟩ := Result.stopped.inj hstop
        exact ⟨v, r, m, hrest⟩
    have hviable : p.core.Viable cc := viable_of_finish (strict_consistent hstrict) hfinish
    exact hviable
  · rintro ⟨hvalues, hviable⟩
    have hstrict := strict_of_more hcc hvalues hmore
    obtain ⟨v, q, n, hrest⟩ := finish_of_viable hcc (strict_consistent hstrict) hviable
    have hrun : scan (strictStep cc) (Parser.init root maxLevels) (chunks.flatten ++ v) =
        .stopped q (some .completed) (chunks.flatten.length + n) := by
      rw [scan_append_more hstrict, hrest]
      rfl
    obtain ⟨d, hd⟩ := strict_sound hrun
    -- the run up to where it completes
    have hrun' := (scan_stopped_take hrun []).2
    rw [List.append_nil, ← hd] at hrun'
    obtain ⟨r, hr, -⟩ := parse_of_strict hrun' (nomatch ·)
    refine ⟨d, _, r, ?_, hr, rfl⟩
    rw [hd, List.take_append, List.take_of_length_le (Nat.le_add_right _ _)]
    exact List.prefix_append ..

/-- `{"a":[nu`, in pieces, can still become a document. -/
theorem viable_prefix_null :
    Continues .binary .empty (some 2) [0x7b, 0x22, 0x61, 0x22, 0x3a, 0x5b, 0x6e, 0x75] := by
  refine (viable_prefix_iff .binary binary_plain .empty (some 2)
    [[0x7b, 0x22, 0x61, 0x22], [0x3a, 0x5b, 0x6e, 0x75]] ⟨8, .moreDataNeeded, 1, 9⟩ _ rfl rfl).mpr
    ⟨by decide, ⟨rfl, [0x6c, 0x6c], .null, rfl⟩, nofun, trivial⟩

end

end

end Jopp
