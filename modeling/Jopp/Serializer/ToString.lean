import Jopp.Serializer.Progress

/-!
# Jopp.Serializer.ToString

The two functions named `to_string` that drive a serializer (`lib/serializer.hpp`).

* `templateToString`: the template over the root types. It appends what a call has written, then
  looks at the result code, and throws on any code other than `completed` and `buffer_is_full`.
* `containerToString`: the overload for containers. It leaves its loop on `completed` before the
  bytes of that call are appended, and goes on after any other code.

Both loops are given a number of calls. `containerToString_never`: the overload never returns a
document, since the call that completes has always written some of it, and it never throws.
-/

namespace Jopp

variable {cc : CharConv} {pretty : Bool} {s s' : Serializer} {cap : Nat}

inductive ToStringOutcome where
  | returned (ret : Str)
  | threw (what : String)
  | outOfFuel

def templateToStringLoop (cc : CharConv) : Nat → Str → Serializer → ToStringOutcome
  | 0, _, _ => .outOfFuel
  | calls + 1, ret, serializer =>
    match serialize cc serializer 65536 with
    | .outOfFuel => .outOfFuel
    | .returned written ec serializer =>
      let ret := ret ++ written
      if ec = .completed then .returned ret
      else if ec ≠ .bufferIsFull then .threw "jopp bad data"
      else templateToStringLoop cc calls ret serializer

def templateToString (cc : CharConv) (root : Container) (calls : Nat) : ToStringOutcome :=
  templateToStringLoop cc calls [] (Serializer.init root false)

def containerToStringLoop (cc : CharConv) : Nat → Str → Serializer → ToStringOutcome
  | 0, _, _ => .outOfFuel
  | calls + 1, ret, serializer =>
    match serialize cc serializer 4096 with
    | .outOfFuel => .outOfFuel
    | .returned written ec serializer =>
      if ec = .completed then .returned ret
      else containerToStringLoop cc calls (ret ++ written) serializer

def containerToString (cc : CharConv) (root : Container) (prettyPrint : Bool) (calls : Nat) :
    ToStringOutcome :=
  containerToStringLoop cc calls [] (Serializer.init root prettyPrint)

/-! ## One call -/

def Serializer.text (cc : CharConv) (s : Serializer) : Str :=
  Drain.text s.rangeToWrite (pendingTokens cc s.prettyPrint s.contexts)

def Serializer.decisive (cc : CharConv) (s : Serializer) : Nat :=
  Drain.decisive s.rangeToWrite (pendingTokens cc s.prettyPrint s.contexts)

def Serializer.Stuck (cc : CharConv) (s : Serializer) : Prop :=
  none ∈ pendingTokens cc s.prettyPrint s.contexts

theorem serialize_call (cc : CharConv) (s : Serializer) (cap : Nat) :
    (∃ s', serialize cc s cap = .returned ((s.text cc).take cap) .bufferIsFull s' ∧
      s'.text cc = (s.text cc).drop cap ∧ s'.decisive cc = s.decisive cc - cap ∧
      (s'.Stuck cc ↔ s.Stuck cc) ∧ cap ≤ s.decisive cc) ∨
    (∃ s', serialize cc s cap = .returned ((s.text cc).take cap) .completed s' ∧
      s.decisive cc < cap ∧ ¬ s.Stuck cc) ∨
    (∃ s', serialize cc s cap = .returned (s.text cc) .illegalCharInString s' ∧
      s.decisive cc ≤ cap ∧ s.Stuck cc) := by
  have hcall := serialize_realizes cc s cap
  rcases Drain.flush_cases cap s.rangeToWrite (pendingTokens cc s.prettyPrint s.contexts) with
    ⟨p', q', hfull, htext, hdec, hnone, hle⟩ | ⟨hnone, hlt, hdone⟩ | ⟨hnone, hle, hfailed⟩
  · rw [hfull] at hcall
    obtain ⟨s', hs', rfl, hpretty, rfl⟩ := hcall.of_full
    refine .inl ⟨s', hs', ?_, ?_, ?_, hle⟩
    · rw [Serializer.text, hpretty]
      exact htext
    · rw [Serializer.decisive, hpretty]
      exact hdec
    · rw [Serializer.Stuck, hpretty]
      exact hnone
  · rw [hdone] at hcall
    obtain ⟨s', hs'⟩ := hcall.of_done
    exact .inr (.inl ⟨s', hs', hlt, hnone⟩)
  · rw [hfailed] at hcall
    obtain ⟨s', hs'⟩ := hcall.of_failed
    exact .inr (.inr ⟨s', hs', hle, hnone⟩)

/-! ## The overload for containers -/

/-- If all can be escaped the overload returns the bytes of the calls that filled their buffer. -/
theorem containerToStringLoop_text (cc : CharConv) :
    ∀ (calls : Nat) (ret : Str) (s : Serializer), ¬ s.Stuck cc → s.decisive cc / 4096 < calls →
      containerToStringLoop cc calls ret s =
        .returned (ret ++ (s.text cc).take (4096 * (s.decisive cc / 4096))) := by
  intro calls
  induction calls with
  | zero => intro ret s _ hcalls; omega
  | succ calls ih =>
    intro ret s hs hcalls
    rcases serialize_call cc s 4096 with
      ⟨s', hcall, htext, hdec, hstuck, hle⟩ | ⟨s', hcall, hlt, -⟩ | ⟨s', -, -, hyes⟩
    · have hrest := ih (ret ++ (s.text cc).take 4096) s' (mt hstuck.mp hs) (by omega)
      have hsplit : 4096 * (s.decisive cc / 4096) = 4096 + 4096 * (s'.decisive cc / 4096) := by
        omega
      simp only [containerToStringLoop, hcall, reduceCtorEq, if_false]
      rw [hrest, htext, hsplit, List.take_add, List.append_assoc]
    · have hzero : s.decisive cc / 4096 = 0 := Nat.div_eq_of_lt hlt
      simp [containerToStringLoop, hcall, hzero]
    · exact absurd hyes hs

/-! ### It comes to an end -/

theorem work_make (c : Container) :
    (makeSerializerContext c).work + 1 = 2 * (toValue c).nodes.length := by
  cases c with
  | object ms =>
    have hlen := memberNodes_length ms
    simp only [makeSerializerContext, SerializerContext.work, toValue, Value.nodes,
      List.length_cons]
    omega
  | array vs =>
    have hlen := itemNodes_length vs
    simp only [makeSerializerContext, SerializerContext.work, toValue, Value.nodes,
      List.length_cons]
    omega

theorem fill_work {current : SerializerContext} {rest : List SerializerContext}
    (hc : s.contexts = current :: rest)
    (h : fill cc { s with rangeToWrite := [] } current rest = .ok s' ∨
      fill cc { s with rangeToWrite := [] } current rest = .error s') : s'.work < s.work := by
  unfold Serializer.work
  rw [hc]
  rcases fill_contexts h with ⟨hr, hs'⟩ | ⟨item, range, hr, hs'⟩
  · rw [hs', List.map_cons, List.sum_cons, SerializerContext.work]
    omega
  · have hpos : 0 < item.value.nodes.length := by cases item.value <;> simp [Value.nodes]
    rcases hs' with hs' | ⟨c, hval, hs'⟩
    · rw [hs']
      simp only [List.map_cons, List.sum_cons, SerializerContext.work, hr]
      omega
    · have hmake := work_make c
      rw [hval] at hmake
      rw [hs']
      simp only [List.map_cons, List.sum_cons, SerializerContext.work, hr] at hmake ⊢
      omega

/-- Less work, or as much of it and less text to write. -/
def Serializer.Ahead (s s' : Serializer) : Prop :=
  s'.work < s.work ∨ s'.work = s.work ∧ s'.rangeToWrite.length < s.rangeToWrite.length

theorem ahead_pass {t t' : Serializer} {written w : Str} (h : s.Ahead t)
    (hpass : (∃ cap', serializePass cc cap written t = .next cap' w t') ∨
      ∃ ec, serializePass cc cap written t = .done (.returned w ec t')) : s.Ahead t' := by
  unfold Serializer.Ahead at h ⊢
  have hb := serializePass_branch cc cap written t
  rcases hpass with ⟨cap', hpass⟩ | ⟨ec, hpass⟩ <;> rw [hpass] at hb
  · cases hb with
    | cut hcap hlt =>
      show t.work < s.work ∨ t.work = s.work ∧ (t.rangeToWrite.drop cap).length < _
      rw [List.length_drop]
      omega
    | filled hle hc hf =>
      have := fill_work hc (.inl hf)
      omega
  · cases hb with
    | full hcap => exact h
    | completed hcap hc =>
      show t.work < s.work ∨ t.work = s.work ∧ (t.rangeToWrite.drop cap).length < _
      rw [List.length_drop]
      omega
    | illegal hle hc hf =>
      have := fill_work hc (.inr hf)
      omega

theorem serialize_ahead (hcap : 0 < cap) {w : Str} {ec : SerializerErrorCode}
    (h : serialize cc s cap = .returned w ec s') (hec : ec ≠ .completed) : s.Ahead s' := by
  rw [serialize, serializeLoop_pass] at h
  have hb := serializePass_branch cc cap [] s
  cases hpass : serializePass cc cap [] s with
  | done o =>
    rw [hpass] at h hb
    obtain rfl : o = .returned w ec s' := h
    cases hb with
    | full h₀ => omega
    | completed h₀ hc => exact absurd rfl hec
    | illegal hle hc hf => exact .inl (fill_work hc (.inr hf))
  | next cap' w' t =>
    rw [hpass] at h hb
    have ht : s.Ahead t := by
      cases hb with
      | cut h₀ hlt =>
        refine .inr ⟨rfl, ?_⟩
        rw [List.length_drop]
        omega
      | filled hle hc hf => exact .inl (fill_work hc (.inl hf))
    exact serializeLoop_inv (I := fun _ _ t => s.Ahead t) (P := fun _ _ t => s.Ahead t)
      (fun _ _ _ _ _ _ hI hp => ahead_pass hI (.inl ⟨_, hp⟩))
      (fun _ _ _ _ _ _ hI hp => ahead_pass hI (.inr ⟨_, hp⟩)) ht h

theorem containerToStringLoop_returns (cc : CharConv) (ret : Str) (s : Serializer) :
    ∃ w calls, ∀ n, calls ≤ n → containerToStringLoop cc n ret s = .returned w := by
  obtain ⟨written, ec, s', hcall⟩ := serialize_returned cc s 4096
  by_cases hec : ec = .completed
  · refine ⟨ret, 1, fun n hn => ?_⟩
    obtain ⟨m, rfl⟩ := Nat.exists_eq_add_of_le' hn
    simp [containerToStringLoop, hcall, hec]
  · have hahead := serialize_ahead (by decide) hcall hec
    obtain ⟨w, calls, hrest⟩ := containerToStringLoop_returns cc (ret ++ written) s'
    refine ⟨w, calls + 1, fun n hn => ?_⟩
    obtain ⟨m, rfl⟩ := Nat.exists_eq_add_of_le' (Nat.le_trans (Nat.le_add_left 1 calls) hn)
    simp only [containerToStringLoop, hcall, hec, if_false]
    exact hrest m (by omega)
termination_by (s.work, s.rangeToWrite.length)
decreasing_by
  rcases hahead with hlt | ⟨heq, hlt⟩
  · exact Prod.Lex.left _ _ hlt
  · rw [heq]
    exact Prod.Lex.right _ hlt

/-! ## The template -/

theorem templateToStringLoop_text (cc : CharConv) :
    ∀ (calls : Nat) (ret : Str) (s : Serializer), ¬ s.Stuck cc → s.decisive cc / 65536 < calls →
      templateToStringLoop cc calls ret s =
        .returned (ret ++ (s.text cc).take (65536 * (s.decisive cc / 65536 + 1))) := by
  intro calls
  induction calls with
  | zero => intro ret s _ hcalls; omega
  | succ calls ih =>
    intro ret s hs hcalls
    rcases serialize_call cc s 65536 with
      ⟨s', hcall, htext, hdec, hstuck, hle⟩ | ⟨s', hcall, hlt, -⟩ | ⟨s', -, -, hyes⟩
    · have hrest := ih (ret ++ (s.text cc).take 65536) s' (mt hstuck.mp hs) (by omega)
      have hsplit : 65536 * (s.decisive cc / 65536 + 1) =
          65536 + 65536 * (s'.decisive cc / 65536 + 1) := by omega
      simp only [templateToStringLoop, hcall, reduceCtorEq, if_false, ne_eq, not_true_eq_false]
      rw [hrest, htext, hsplit, List.take_add, List.append_assoc]
    · have hzero : s.decisive cc / 65536 = 0 := Nat.div_eq_of_lt hlt
      simp [templateToStringLoop, hcall, hzero]
    · exact absurd hyes hs

theorem templateToStringLoop_throws (cc : CharConv) :
    ∀ (calls : Nat) (ret : Str) (s : Serializer), s.Stuck cc → s.decisive cc / 65536 < calls →
      templateToStringLoop cc calls ret s = .threw "jopp bad data" := by
  intro calls
  induction calls with
  | zero => intro ret s _ hcalls; omega
  | succ calls ih =>
    intro ret s hs hcalls
    rcases serialize_call cc s 65536 with
      ⟨s', hcall, -, hdec, hstuck, hle⟩ | ⟨s', -, -, hno⟩ | ⟨s', hcall, -, -⟩
    · have hrest := ih (ret ++ (s.text cc).take 65536) s' (hstuck.mpr hs) (by omega)
      simp only [templateToStringLoop, hcall, reduceCtorEq, if_false, ne_eq, not_true_eq_false]
      exact hrest
    · exact absurd hs hno
    · simp [templateToStringLoop, hcall]

/-! ## What the overload falls short of -/

/-- `w` is what one sufficiently large buffer receives. -/
def WholeText (cc : CharConv) (c : Container) (pretty : Bool) (w : Str) : Prop :=
  ∃ enough, ∀ big, enough ≤ big →
    ∃ s, serialize cc (Serializer.init c pretty) big = .returned w .completed s

/-- The whole text is returned, or there is none and the function throws. -/
def ToStringCorrect (cc : CharConv) (c : Container) (pretty : Bool) (o : ToStringOutcome) : Prop :=
  ((toValue c).AllStrings Escapable → ∃ w, o = .returned w ∧ WholeText cc c pretty w) ∧
    (¬ (toValue c).AllStrings Escapable → ∃ what, o = .threw what)

theorem wholeText_eq {c : Container} {w : Str} (h : WholeText cc c pretty w) :
    w = c.text cc pretty := by
  obtain ⟨enough, hall⟩ := h
  obtain ⟨s, hs⟩ := hall (max enough ((c.text cc pretty).length + 1)) (Nat.le_max_left ..)
  obtain ⟨s', hs'⟩ := serialize_enough cc c pretty
    (Nat.lt_of_succ_le (Nat.le_max_right enough ((c.text cc pretty).length + 1)))
  rw [hs] at hs'
  exact (SerializeOutcome.returned.inj hs').1

theorem init_text (cc : CharConv) (c : Container) (pretty : Bool) :
    (Serializer.init c pretty).text cc = c.text cc pretty := by
  unfold Serializer.text
  rw [init_rangeToWrite]
  change Drain.text _ (pendingTokens cc pretty _) = _
  rw [init_pendingTokens]
  rfl

theorem init_stuck (cc : CharConv) (c : Container) (pretty : Bool) :
    (Serializer.init c pretty).Stuck cc ↔ ¬ (toValue c).AllStrings Escapable := by
  unfold Serializer.Stuck
  change none ∈ pendingTokens cc pretty _ ↔ _
  rw [init_pendingTokens, none_mem_container_tokens, offends_iff]

/-- The last closing delimiter comes behind the decisive position. -/
theorem init_decisive (cc : CharConv) (c : Container) (pretty : Bool)
    (h : (toValue c).AllStrings Escapable) :
    (c.text cc pretty).length =
      (Serializer.init c pretty).decisive cc + if pretty then 3 else 2 := by
  rw [text_length cc pretty fun ho => (offends_iff c).mp ho h]
  unfold Serializer.decisive
  rw [init_rangeToWrite]
  change _ = Drain.decisive _ (pendingTokens cc pretty _) + _
  rw [init_pendingTokens]

/-- Where the overload returns less than the document, the template returns more than that, and
where the template throws the overload returns. -/
theorem template_ne {c : Container} {w : Str}
    (hw : (toValue c).AllStrings Escapable →
      w.length ≤ (Serializer.init c false).decisive cc) {n : Nat}
    (hn : (Serializer.init c false).decisive cc / 65536 < n) :
    templateToString cc c n ≠ .returned w := by
  by_cases hesc : (toValue c).AllStrings Escapable
  · have hlen := init_decisive cc c false hesc
    have hle := hw hesc
    rw [templateToString, templateToStringLoop_text cc n [] _
      (fun hs => (init_stuck cc c false).mp hs hesc) hn]
    intro he
    have hlong := congrArg List.length (ToStringOutcome.returned.inj he)
    rw [List.nil_append, init_text, List.length_take, hlen] at hlong
    simp only [Bool.false_eq_true, if_false] at hlong
    omega
  · rw [templateToString, templateToStringLoop_throws cc n [] _
      ((init_stuck cc c false).mpr hesc) hn]
    exact fun he => by cases he

/-- **The overload for containers is never right.** It returns a text for every tree: never the
document, if there is one, but what the calls before the last one wrote of it; and a text also
where a string cannot be escaped. The template never agrees with it. -/
theorem containerToString_never (cc : CharConv) (c : Container) (pretty : Bool) :
    ∃ w calls, (∀ n, calls ≤ n → containerToString cc c pretty n = .returned w) ∧
      ¬ ToStringCorrect cc c pretty (.returned w) ∧
      ((toValue c).AllStrings Escapable → w = (c.text cc pretty).take
        (4096 * (((c.text cc pretty).length - if pretty then 3 else 2) / 4096))) ∧
      (pretty = false → ∀ n, calls ≤ n →
        templateToString cc c n ≠ containerToString cc c pretty n) := by
  by_cases hesc : (toValue c).AllStrings Escapable
  · have hlen := init_decisive cc c pretty hesc
    have hshort : (c.text cc pretty).length - (if pretty then 3 else 2) =
        (Serializer.init c pretty).decisive cc := by omega
    rw [hshort]
    have hw : ((c.text cc pretty).take
        (4096 * ((Serializer.init c pretty).decisive cc / 4096))).length ≤
          (Serializer.init c pretty).decisive cc := by
      rw [List.length_take]
      omega
    have hrun : ∀ n, (Serializer.init c pretty).decisive cc / 4096 + 1 ≤ n →
        containerToString cc c pretty n = .returned ((c.text cc pretty).take
          (4096 * ((Serializer.init c pretty).decisive cc / 4096))) := fun n hn => by
      rw [containerToString, containerToStringLoop_text cc n [] _
        (fun hs => (init_stuck cc c pretty).mp hs hesc) hn, init_text, List.nil_append]
    refine ⟨_, _, hrun, fun hcorrect => ?_, fun _ => rfl, ?_⟩
    · obtain ⟨w, hret, hwhole⟩ := hcorrect.1 hesc
      have hpos : 0 < if pretty then 3 else 2 := by cases pretty <;> decide
      have hlong := congrArg List.length (ToStringOutcome.returned.inj hret)
      rw [wholeText_eq hwhole] at hlong
      omega
    · rintro rfl n hn
      rw [hrun n hn]
      exact template_ne (fun _ => hw) (by omega)
  · obtain ⟨w, calls, hrun⟩ := containerToStringLoop_returns cc [] (Serializer.init c pretty)
    refine ⟨w, max calls ((Serializer.init c pretty).decisive cc / 65536 + 1), fun n hn => ?_,
      fun hcorrect => ?_, fun h => absurd h hesc, ?_⟩
    · exact hrun n (Nat.le_trans (Nat.le_max_left ..) hn)
    · obtain ⟨what, hthrew⟩ := hcorrect.2 hesc
      cases hthrew
    · rintro rfl n hn
      rw [containerToString, hrun n (Nat.le_trans (Nat.le_max_left ..) hn)]
      exact template_ne (fun h => absurd h hesc)
        (Nat.lt_of_succ_le (Nat.le_trans (Nat.le_max_right ..) hn))

/-- Of the empty object nothing is returned. -/
theorem containerToString_empty :
    ¬ ∀ (cc : CharConv) (c : Container) (pretty : Bool), ∃ o calls,
      (∀ n, calls ≤ n → containerToString cc c pretty n = o) ∧ ToStringCorrect cc c pretty o := by
  intro h
  obtain ⟨o, calls, hrun, hcorrect⟩ := h .binary .empty false
  obtain ⟨w, rfl, enough, hbig⟩ := hcorrect.1 (by decide)
  have hempty : containerToString .binary .empty false (calls + 1) = .returned [] := rfl
  rw [hrun _ (Nat.le_succ calls)] at hempty
  cases hempty
  obtain ⟨s, hs⟩ := hbig (enough + 64) (Nat.le_add_right ..)
  have hwritten : ∃ s', serialize .binary (Serializer.init .empty false) (enough + 64) =
      .returned [0x7b, 0x7d, 0x0a] .completed s' := ⟨_, rfl⟩
  obtain ⟨s', hs'⟩ := hwritten
  rw [hs] at hs'
  cases hs'

end Jopp
