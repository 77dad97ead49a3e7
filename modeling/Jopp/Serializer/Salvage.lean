import Jopp.Serializer.Unfinished

/-!
# Jopp.Serializer.Salvage

A caller that goes on after an item that cannot be escaped, and after the call that completes.

* `reports`: the tokens such a caller sees, with `none` for each item that is reported. Of an item
  whose key cannot be escaped all is left out that is in its value; the separator before the next
  item stays.
* `Serializer.allText`, `Serializer.faults`: what a serializer has still to write, and to report.
* `serialize_accounts`: no call loses anything of either, whatever it returns.
-/

namespace Jopp

section

variable (cc : CharConv) (pretty : Bool)

/-- An item, and what is behind the beginning of its value. -/
def itemReports (depth : Nat) (first : Bool) (key : Str) (v : Value) (inner : Drain.Queue Byte) :
    Drain.Queue Byte :=
  match itemToken cc pretty depth first key v with
  | none => [none]
  | some tok => some tok :: inner

mutual

def Value.reports (depth : Nat) : Value → Drain.Queue Byte
  | .object ms =>
    memberReports (depth + 1) true ms ++ [some (closeText pretty depth Delimiters.endObject)]
  | .array vs =>
    elementReports (depth + 1) true vs ++ [some (closeText pretty depth Delimiters.endArray)]
  | _ => []
termination_by structural v => v

def memberReports (depth : Nat) (first : Bool) : List (Str × Value) → Drain.Queue Byte
  | [] => []
  | (k, v) :: ms =>
    itemReports cc pretty depth first k v (v.reports depth) ++ memberReports depth false ms
termination_by structural ms => ms

def elementReports (depth : Nat) (first : Bool) : List Value → Drain.Queue Byte
  | [] => []
  | v :: vs =>
    itemReports cc pretty depth first [] v (v.reports depth) ++ elementReports depth false vs
termination_by structural vs => vs

end

def blockReports (depth : Nat) (first : Bool) : List ItemPointer → Drain.Queue Byte
  | [] => []
  | item :: range =>
    itemReports cc pretty depth first item.key item.value (item.value.reports cc pretty depth) ++
      blockReports depth false range

def Container.reports (depth : Nat) (c : Container) : Drain.Queue Byte :=
  blockReports cc pretty (depth + 1) true (itemPointers c) ++
    [some (closeText pretty depth c.terminator)]

/-- What a stack of contexts still has to write and to report, its top first. -/
def pendingReports : List SerializerContext → Drain.Queue Byte
  | [] => []
  | context :: rest =>
    blockReports cc pretty (rest.length + 1) context.firstItem context.range ++
      some (closeText pretty rest.length context.blockTerminator) :: pendingReports rest

def Container.allText (t : Container) : Str :=
  t.openText pretty ++ Drain.salvage (t.reports cc pretty 0)

def Container.faults (t : Container) : Nat := (t.reports cc pretty 0).count none

end

variable {cc : CharConv} {pretty : Bool} {s s' : Serializer} {cap : Nat} {w : Str}

def Serializer.allText (cc : CharConv) (s : Serializer) : Str :=
  s.rangeToWrite ++ Drain.salvage (pendingReports cc s.prettyPrint s.contexts)

def Serializer.faults (cc : CharConv) (s : Serializer) : Nat :=
  (pendingReports cc s.prettyPrint s.contexts).count none

/-! ## Reports and tokens -/

theorem memberReports_eq (depth : Nat) (first : Bool) (ms : List (Str × Value)) :
    memberReports cc pretty depth first ms =
      blockReports cc pretty depth first (itemPointers (.object ms)) := by
  induction ms generalizing first with
  | nil => rfl
  | cons kv ms ih => simp only [memberReports, ih]; rfl

theorem elementReports_eq (depth : Nat) (first : Bool) (vs : List Value) :
    elementReports cc pretty depth first vs =
      blockReports cc pretty depth first (itemPointers (.array vs)) := by
  induction vs generalizing first with
  | nil => rfl
  | cons v vs ih => simp only [elementReports, ih]; rfl

theorem reports_toValue (depth : Nat) (c : Container) :
    (toValue c).reports cc pretty depth = c.reports cc pretty depth := by
  cases c with
  | object ms => simp only [toValue, Value.reports, memberReports_eq]; rfl
  | array vs => simp only [toValue, Value.reports, elementReports_eq]; rfl

theorem pendingReports_make (c : Container) (rest : List SerializerContext) :
    pendingReports cc pretty (makeSerializerContext c :: rest) =
      c.reports cc pretty rest.length ++ pendingReports cc pretty rest := by
  cases c <;> simp [pendingReports, makeSerializerContext, Container.reports, Container.terminator]

theorem blockReports_eq {depth : Nat} {first : Bool} {range : List ItemPointer}
    (h : ∀ item ∈ range, ∀ d, none ∉ item.value.reports cc pretty d ∨
      none ∉ item.value.tokens cc pretty d →
      item.value.reports cc pretty d = item.value.tokens cc pretty d)
    (hnone : none ∉ blockReports cc pretty depth first range ∨
      none ∉ blockTokens cc pretty depth first range) :
    blockReports cc pretty depth first range = blockTokens cc pretty depth first range := by
  induction range generalizing first with
  | nil => rfl
  | cons item range ih =>
    rw [List.forall_mem_cons] at h
    simp only [blockReports, blockTokens, itemReports] at hnone ⊢
    cases htoken : itemToken cc pretty depth first item.key item.value with
    | none =>
      rw [htoken] at hnone
      simp at hnone
    | some tok =>
      simp only [htoken, List.cons_append, List.mem_cons, List.mem_append, reduceCtorEq,
        false_or, not_or] at hnone ⊢
      rw [h.1 depth (hnone.imp And.left And.left), ih h.2 (hnone.imp And.right And.right)]

/-- Where nothing is reported, or all can be written, the two are the same. -/
theorem reports_eq (v : Value) : ∀ d, none ∉ v.reports cc pretty d ∨
    none ∉ v.tokens cc pretty d → v.reports cc pretty d = v.tokens cc pretty d := by
  induction v using Value.induct with
  | null | boolean | number | string => exact fun _ _ => rfl
  | object ms ih =>
    intro d h
    simp only [Value.reports, Value.tokens, memberReports_eq, memberTokens_eq, List.mem_append,
      not_or] at h ⊢
    have hblock : blockReports cc pretty (d + 1) true (itemPointers (.object ms)) =
        blockTokens cc pretty (d + 1) true (itemPointers (.object ms)) :=
      blockReports_eq (List.forall_mem_map.mpr ih) (h.imp And.left And.left)
    rw [hblock]
  | array vs ih =>
    intro d h
    simp only [Value.reports, Value.tokens, elementReports_eq, elementTokens_eq, List.mem_append,
      not_or] at h ⊢
    have hblock : blockReports cc pretty (d + 1) true (itemPointers (.array vs)) =
        blockTokens cc pretty (d + 1) true (itemPointers (.array vs)) :=
      blockReports_eq (List.forall_mem_map.mpr ih) (h.imp And.left And.left)
    rw [hblock]

theorem container_reports_eq (t : Container) (h : none ∉ t.reports cc pretty 0 ∨
    none ∉ t.tokens cc pretty 0) : t.reports cc pretty 0 = t.tokens cc pretty 0 := by
  rw [← reports_toValue, ← tokens_toValue] at h ⊢
  exact reports_eq _ 0 h

/-- There is nothing to report exactly if all strings can be escaped, and all is written then. -/
theorem faults_eq_zero (t : Container) :
    (t.faults cc pretty = 0 ↔ (toValue t).AllStrings Escapable) ∧
      ((toValue t).AllStrings Escapable → t.allText cc pretty = t.text cc pretty) := by
  have htokens : none ∉ t.tokens cc pretty 0 ↔ (toValue t).AllStrings Escapable := by
    rw [none_mem_container_tokens, offends_iff, not_not]
  rw [← htokens]
  refine ⟨?_, fun h => ?_⟩
  · rw [Container.faults, List.count_eq_zero]
    exact ⟨fun h => container_reports_eq t (.inl h) ▸ h,
      fun h => (container_reports_eq t (.inr h)).symm ▸ h⟩
  · rw [Container.allText, container_reports_eq t (.inr h), Drain.salvage_eq h]
    rfl

/-! ## One call -/

theorem reports_scalar {v : Value} (h : v.opens = 0) (d : Nat) : v.reports cc pretty d = [] := by
  cases v with
  | null | boolean | number | string => rfl
  | object ms | array vs => cases h

theorem pendingReports_item {current : SerializerContext} {rest : List SerializerContext}
    {item : ItemPointer} {range : List ItemPointer} (hr : current.range = item :: range) :
    pendingReports cc pretty (current :: rest) =
      itemReports cc pretty (rest.length + 1) current.firstItem item.key item.value
          (item.value.reports cc pretty (rest.length + 1)) ++
        pendingReports cc pretty ({ current with range := range, firstItem := false } :: rest) := by
  simp [pendingReports, hr, blockReports]

/-- A step that goes on writes the first of what is pending. -/
theorem fill_reports {current : SerializerContext} {rest : List SerializerContext}
    (hc : s.contexts = current :: rest) (h : fill cc s current rest = .ok s') :
    pendingReports cc s.prettyPrint s.contexts =
      some s'.rangeToWrite :: pendingReports cc s'.prettyPrint s'.contexts := by
  rcases fill_cases cc s hc with ⟨tok, t, hok, hrange, hpretty, hpending⟩ | ⟨t, -, herror, -⟩
  · rw [h] at hok
    cases hok
    rw [hrange, hpretty]
    rw [hc] at hpending ⊢
    rcases fill_contexts (.inl h) with ⟨hr, hs'⟩ | ⟨item, range, hr, hs'⟩
    · simp only [pendingTokens, pendingReports, hr, blockTokens, blockReports, List.nil_append]
        at hpending ⊢
      rw [hs', (List.cons.inj hpending).1]
    · have hlen := fill_pushes hr h
      simp only [pendingTokens, hr, blockTokens, List.cons_append] at hpending
      rw [pendingReports_item hr, itemReports, (List.cons.inj hpending).1]
      rcases hs' with hs' | ⟨c, hval, hs'⟩
      · rw [hs'] at hlen ⊢
        rw [reports_scalar (Nat.left_eq_add.mp hlen)]
        rfl
      · rw [hs', pendingReports_make, ← hval, reports_toValue]
        rfl
  · rw [h] at herror
    cases herror

theorem fill_reports_error {current : SerializerContext} {rest : List SerializerContext}
    (hc : s.contexts = current :: rest) (h : fill cc s current rest = .error s') :
    pendingReports cc s.prettyPrint s.contexts =
      none :: pendingReports cc s'.prettyPrint s'.contexts := by
  rcases fill_cases cc s hc with ⟨tok, t, hok, -⟩ | ⟨t, queue, herror, hpending⟩
  · rw [h] at hok
    cases hok
  · rw [h] at herror
    cases herror
    rw [hc] at hpending ⊢
    rcases fill_contexts (.inr h) with ⟨hr, -⟩ | ⟨item, range, hr, hs'⟩
    · simp only [fill, hr] at h
      cases h
    · obtain ⟨-, hlen, hpretty⟩ := fill_error h
      simp only [pendingTokens, hr, blockTokens, List.cons_append] at hpending
      rw [pendingReports_item hr, itemReports, (List.cons.inj hpending).1]
      rcases hs' with hs' | ⟨c, -, hs'⟩
      · rw [hs', hpretty]
        rfl
      · rw [hs'] at hlen
        simp at hlen

theorem fill_accounts {current : SerializerContext} {rest : List SerializerContext}
    (hc : s.contexts = current :: rest)
    (h : fill cc { s with rangeToWrite := [] } current rest = .ok s') :
    s.rangeToWrite ++ s'.allText cc = s.allText cc ∧ s'.faults cc = s.faults cc := by
  have hpending : pendingReports cc s.prettyPrint s.contexts =
      some s'.rangeToWrite :: pendingReports cc s'.prettyPrint s'.contexts :=
    fill_reports (s := { s with rangeToWrite := [] }) hc h
  have hne : some s'.rangeToWrite ≠ none := nofun
  unfold Serializer.allText Serializer.faults
  rw [hpending, List.count_cons_of_ne hne]
  exact ⟨rfl, rfl⟩

theorem fill_accounts_error {current : SerializerContext} {rest : List SerializerContext}
    (hc : s.contexts = current :: rest)
    (h : fill cc { s with rangeToWrite := [] } current rest = .error s') :
    s.rangeToWrite ++ s'.allText cc = s.allText cc ∧ s'.faults cc + 1 = s.faults cc := by
  have hpending : pendingReports cc s.prettyPrint s.contexts =
      none :: pendingReports cc s'.prettyPrint s'.contexts :=
    fill_reports_error (s := { s with rangeToWrite := [] }) hc h
  have hrange : s'.rangeToWrite = [] := (fill_error h).1
  unfold Serializer.allText Serializer.faults
  rw [hpending, hrange, List.count_cons_self]
  exact ⟨rfl, rfl⟩

theorem take_allText (s : Serializer) (w : Str) (cap : Nat) :
    w ++ s.rangeToWrite.take cap ++
        Serializer.allText cc { s with rangeToWrite := s.rangeToWrite.drop cap } =
      w ++ s.allText cc := by
  simp only [Serializer.allText, List.append_assoc]
  rw [← List.append_assoc (s.rangeToWrite.take cap), List.take_append_drop]

theorem accounts_next {cap' : Nat} {w' : Str}
    (hpass : serializePass cc cap w s = .next cap' w' s') :
    w' ++ s'.allText cc = w ++ s.allText cc ∧ s'.faults cc = s.faults cc := by
  have hb := serializePass_branch cc cap w s
  rw [hpass] at hb
  cases hb with
  | cut hcap hlt => exact ⟨take_allText s w cap, rfl⟩
  | filled hle hc hf =>
    obtain ⟨htext, hfaults⟩ := fill_accounts hc hf
    exact ⟨by rw [List.append_assoc, htext], hfaults⟩

theorem accounts_done {w' : Str} {ec : SerializerErrorCode}
    (hpass : serializePass cc cap w s = .done (.returned w' ec s')) :
    w' ++ s'.allText cc = w ++ s.allText cc ∧
      (if ec = .illegalCharInString then 1 else 0) + s'.faults cc = s.faults cc := by
  have hb := serializePass_branch cc cap w s
  rw [hpass] at hb
  cases hb with
  | full hcap => exact ⟨rfl, Nat.zero_add _⟩
  | completed hcap hc => exact ⟨take_allText s w cap, Nat.zero_add _⟩
  | illegal hle hc hf =>
    obtain ⟨htext, hfaults⟩ := fill_accounts_error hc hf
    exact ⟨by rw [List.append_assoc, htext], (Nat.add_comm ..).trans hfaults⟩

theorem accounts_serialize {ec : SerializerErrorCode}
    (h : serialize cc s cap = .returned w ec s') :
    w ++ s'.allText cc = s.allText cc ∧
      (if ec = .illegalCharInString then 1 else 0) + s'.faults cc = s.faults cc := by
  refine serializeLoop_inv (I := fun _ u t => u ++ t.allText cc = s.allText cc ∧
      t.faults cc = s.faults cc) (P := fun u ec t => u ++ t.allText cc = s.allText cc ∧
      (if ec = .illegalCharInString then 1 else 0) + t.faults cc = s.faults cc)
    (fun left u t left' u' t' hI hpass => ?_) (fun left u t u' ec t' hI hpass => ?_) ⟨rfl, rfl⟩ h
  · obtain ⟨htext, hfaults⟩ := accounts_next hpass
    exact ⟨htext.trans hI.1, hfaults.trans hI.2⟩
  · obtain ⟨htext, hfaults⟩ := accounts_done hpass
    exact ⟨htext.trans hI.1, hfaults.trans hI.2⟩

/-! ## The last token -/

def lastToken (pretty : Bool) : Nat := if pretty then 3 else 2

/-- With nothing on the stack, what is left to write is of the last token. -/
def Serializer.Closing (s : Serializer) (pretty : Bool) : Prop :=
  s.prettyPrint = pretty ∧ (s.contexts = [] → s.rangeToWrite.length ≤ lastToken pretty)

/-- Some of the last token has been written, and all before it. -/
def Serializer.Closed (s : Serializer) (pretty : Bool) : Prop :=
  s.contexts = [] ∧ s.rangeToWrite.length < lastToken pretty

theorem closing_init (t : Container) (pretty : Bool) :
    (Serializer.init t pretty).Closing pretty := ⟨rfl, nofun⟩

theorem closing_next {cap' : Nat} {w' : Str} (hs : s.Closing pretty)
    (hpass : serializePass cc cap w s = .next cap' w' s') : s'.Closing pretty := by
  have hb := serializePass_branch cc cap w s
  rw [hpass] at hb
  cases hb with
  | cut hcap hlt =>
    refine ⟨hs.1, fun hc => ?_⟩
    have := hs.2 hc
    rw [List.length_drop]
    omega
  | filled hle hc hf =>
    rename_i current rest
    rcases fill_cases cc { s with rangeToWrite := [] } hc with
      ⟨tok, t, hok, hrange, hpretty, hpending⟩ | ⟨t, -, herror, -⟩
    · rw [hf] at hok
      cases hok
      refine ⟨hpretty.trans hs.1, fun hnil => ?_⟩
      rcases fill_contexts (.inl hf) with ⟨hr, hs'⟩ | ⟨item, range, -, hs' | ⟨c, -, hs'⟩⟩
      · obtain rfl : rest = [] := hs'.symm.trans hnil
        rw [hc] at hpending
        simp only [pendingTokens, hr, blockTokens, List.nil_append, List.length_nil] at hpending
        rw [hrange, ← Option.some.inj (List.cons.inj hpending).1, closeText_length, hs.1]
        exact Nat.le_refl _
      · rw [hs'] at hnil
        cases hnil
      · rw [hs'] at hnil
        cases hnil
    · rw [hf] at herror
      cases herror

theorem closing_done {w' : Str} {ec : SerializerErrorCode} (hs : s.Closing pretty)
    (hpass : serializePass cc cap w s = .done (.returned w' ec s')) :
    s'.Closing pretty ∧ (ec = .completed → s'.Closed pretty) := by
  have hb := serializePass_branch cc cap w s
  rw [hpass] at hb
  cases hb with
  | full hcap => exact ⟨hs, nofun⟩
  | completed hcap hc =>
    have hlast := hs.2 hc
    have hpos : 0 < lastToken pretty := by cases pretty <;> decide
    have hlt : (s.rangeToWrite.drop cap).length < lastToken pretty := by
      rw [List.length_drop]
      omega
    exact ⟨⟨hs.1, fun _ => Nat.le_of_lt hlt⟩, fun _ => ⟨hc, hlt⟩⟩
  | illegal hle hc hf =>
    obtain ⟨-, hlen, hpretty⟩ := fill_error hf
    refine ⟨⟨hpretty.trans hs.1, fun hnil => ?_⟩, nofun⟩
    rw [hnil] at hlen
    cases hlen

theorem closing_serialize {ec : SerializerErrorCode} (hs : s.Closing pretty)
    (h : serialize cc s cap = .returned w ec s') :
    s'.Closing pretty ∧ (ec = .completed → s'.Closed pretty) :=
  serializeLoop_inv (I := fun _ _ t => t.Closing pretty)
    (P := fun _ ec t => t.Closing pretty ∧ (ec = .completed → t.Closed pretty))
    (fun _ _ _ _ _ _ hI hpass => closing_next hI hpass)
    (fun _ _ _ _ _ _ hI hpass => closing_done hI hpass) hs h

/-- After the call that completes the others write the rest of the last token. -/
theorem closed_serialize {ec : SerializerErrorCode} (hs : s.Closed pretty)
    (h : serialize cc s cap = .returned w ec s') : s'.Closed pretty := by
  refine serializeLoop_inv (I := fun _ _ t => t.Closed pretty)
    (P := fun _ _ t => t.Closed pretty) (fun left u t left' u' t' hI hpass => ?_)
    (fun left u t u' ec t' hI hpass => ?_) hs h
  · exact absurd hI.1 (contexts_of_next hpass)
  · have hb := serializePass_branch cc left u t
    rw [hpass] at hb
    cases hb with
    | full hcap => exact hI
    | completed hcap hc =>
      refine ⟨hc, Nat.lt_of_le_of_lt ?_ hI.2⟩
      rw [List.length_drop]
      exact Nat.sub_le ..
    | illegal hle hc hf =>
      rw [hI.1] at hc
      cases hc

theorem closed_rest (hs : s.Closed pretty) :
    s.faults cc = 0 ∧ (s.allText cc).length < lastToken pretty := by
  obtain ⟨hc, hlt⟩ := hs
  unfold Serializer.faults Serializer.allText
  rw [hc]
  exact ⟨rfl, by simpa [pendingReports, Drain.salvage] using hlt⟩

/-- A call that finds nothing to report fills its buffer, as far as there is text. -/
theorem serialize_takes {ec : SerializerErrorCode} (h : serialize cc s cap = .returned w ec s')
    (hec : ec ≠ .illegalCharInString) : w = (s.allText cc).take cap := by
  obtain ⟨htext, -⟩ := accounts_serialize h
  have hlen : w.length = cap ∨ w.length ≤ cap ∧ s'.allText cc = [] := by
    refine serializeLoop_inv (I := fun left u _ => left + u.length = cap)
      (P := fun u ec t => ec ≠ .illegalCharInString →
        u.length = cap ∨ u.length ≤ cap ∧ t.allText cc = [])
      (fun left u t left' u' t' hI hpass => ?_) (fun left u t u' ec t' hI hpass hec => ?_) (by simp)
      h hec
    · have hb := serializePass_branch cc left u t
      rw [hpass] at hb
      cases hb with
      | cut hcap hlt =>
        rw [List.length_append, List.length_take]
        omega
      | filled hle hc hf =>
        rw [List.length_append]
        omega
    · have hb := serializePass_branch cc left u t
      rw [hpass] at hb
      cases hb with
      | full hcap => exact .inl (by omega)
      | completed hcap hc =>
        rw [List.length_append, List.length_take]
        by_cases hlong : left ≤ t.rangeToWrite.length
        · exact .inl (by omega)
        · refine .inr ⟨by omega, ?_⟩
          simp only [Serializer.allText, hc, pendingReports, Drain.salvage, List.append_nil]
          exact List.drop_eq_nil_of_le (by omega)
      | illegal hle hc hf => exact absurd rfl hec
  rcases hlen with hfull | ⟨hle, hnil⟩
  · rw [← htext, ← hfull, List.take_left]
  · rw [← htext, hnil, List.append_nil, List.take_of_length_le hle]

/-! ## Whole runs -/

structure Call where
  written : Str
  ec : SerializerErrorCode

/-- One call for each buffer, whatever the calls before it have returned. -/
def serializeEach (cc : CharConv) (s : Serializer) : List Nat → List Call × Serializer
  | [] => ([], s)
  | outputBuffer :: outputBuffers =>
    match serialize cc s outputBuffer with
    | .returned written ec s =>
      let rest := serializeEach cc s outputBuffers
      (⟨written, ec⟩ :: rest.1, rest.2)
    | .outOfFuel => ([], s)

def Call.isIllegal (call : Call) : Bool := call.ec == .illegalCharInString

theorem init_accounts (cc : CharConv) (t : Container) (pretty : Bool) :
    (Serializer.init t pretty).allText cc = t.allText cc pretty ∧
      (Serializer.init t pretty).faults cc = t.faults cc pretty := by
  have hpending : pendingReports cc (Serializer.init t pretty).prettyPrint
      (Serializer.init t pretty).contexts = t.reports cc pretty 0 := by
    show pendingReports cc pretty [makeSerializerContext t] = _
    rw [pendingReports_make]
    exact List.append_nil _
  unfold Serializer.allText Serializer.faults
  rw [hpending, init_rangeToWrite]
  exact ⟨rfl, rfl⟩

theorem accounts_each {caps : List Nat} {calls : List Call}
    (h : serializeEach cc s caps = (calls, s')) :
    calls.flatMap Call.written ++ s'.allText cc = s.allText cc ∧
      calls.countP Call.isIllegal + s'.faults cc = s.faults cc := by
  induction caps generalizing s calls with
  | nil =>
    cases h
    exact ⟨rfl, Nat.zero_add _⟩
  | cons cap caps ih =>
    obtain ⟨w, ec, t, hcall⟩ := serialize_returned cc s cap
    simp only [serializeEach, hcall] at h
    cases h
    obtain ⟨htext, hfaults⟩ := ih (s := t) rfl
    obtain ⟨htext', hfaults'⟩ := accounts_serialize hcall
    refine ⟨?_, ?_⟩
    · rw [List.flatMap_cons, List.append_assoc, htext, htext']
    · rw [List.countP_cons, ← hfaults', ← hfaults]
      simp only [Call.isIllegal, beq_iff_eq]
      omega

theorem closed_each {caps : List Nat} {calls : List Call} (hs : s.Closed pretty)
    (h : serializeEach cc s caps = (calls, s')) : s'.Closed pretty := by
  induction caps generalizing s calls with
  | nil =>
    cases h
    exact hs
  | cons cap caps ih =>
    obtain ⟨w, ec, t, hcall⟩ := serialize_returned cc s cap
    simp only [serializeEach, hcall] at h
    cases h
    exact ih (closed_serialize hs hcall) rfl

theorem closing_each {caps : List Nat} {calls : List Call} (hs : s.Closing pretty)
    (h : serializeEach cc s caps = (calls, s')) (hcall : ∃ call ∈ calls, call.ec = .completed) :
    s'.Closed pretty := by
  induction caps generalizing s calls with
  | nil =>
    cases h
    obtain ⟨call, hmem, -⟩ := hcall
    cases hmem
  | cons cap caps ih =>
    obtain ⟨w, ec, t, hrun⟩ := serialize_returned cc s cap
    simp only [serializeEach, hrun] at h
    cases h
    obtain ⟨hclosing, hclosed⟩ := closing_serialize hs hrun
    rw [List.exists_mem_cons_iff] at hcall
    rcases hcall with hec | hcall
    · exact closed_each (hclosed hec) rfl
    · exact ih hclosing rfl hcall

/-- Where there is nothing to report, the buffers receive the text in order, and are filled as far
as it goes. -/
theorem takes_each {caps : List Nat} {calls : List Call} (hs : s.faults cc = 0)
    (h : serializeEach cc s caps = (calls, s')) :
    calls.flatMap Call.written = (s.allText cc).take caps.sum := by
  induction caps generalizing s calls with
  | nil =>
    cases h
    rfl
  | cons cap caps ih =>
    obtain ⟨w, ec, t, hcall⟩ := serialize_returned cc s cap
    simp only [serializeEach, hcall] at h
    cases h
    obtain ⟨htext, hfaults⟩ := accounts_serialize hcall
    have hec : ec ≠ .illegalCharInString := by
      rintro rfl
      rw [if_pos rfl, hs] at hfaults
      omega
    have hw := serialize_takes hcall hec
    have hdrop : t.allText cc = (s.allText cc).drop cap := by
      rw [hw] at htext
      exact List.append_cancel_left (htext.trans (List.take_append_drop ..).symm)
    rw [List.flatMap_cons, ih (by omega) rfl, List.sum_cons, List.take_add, hdrop, ← hw]

/-- **Whatever the calls return**, nothing is lost: what they have written and what is still to be
written is one text, and every item that cannot be escaped is reported once, except for those in the
value of an item that is reported for its key, which are skipped with it. A call completes only when
all but the end of the last token is written and all is reported. If there is nothing to report, the
calls together have written what their buffers have room for. -/
theorem serialize_accounts (cc : CharConv) (t : Container) (pretty : Bool) (caps : List Nat) :
    let run := serializeEach cc (Serializer.init t pretty) caps
    run.1.flatMap Call.written ++ run.2.allText cc = t.allText cc pretty ∧
      run.1.countP Call.isIllegal + run.2.faults cc = t.faults cc pretty ∧
      ((∃ call ∈ run.1, call.ec = .completed) →
        run.2.faults cc = 0 ∧ (run.2.allText cc).length < if pretty then 3 else 2) ∧
      (t.faults cc pretty = 0 ↔ (toValue t).AllStrings Escapable) ∧
      ((toValue t).AllStrings Escapable →
        run.1.flatMap Call.written = (t.text cc pretty).take caps.sum) := by
  intro run
  have hinit := init_accounts cc t pretty
  obtain ⟨htext, hfaults⟩ := accounts_each (s := Serializer.init t pretty) rfl
  have hescapable : (t.faults cc pretty = 0 ↔ (toValue t).AllStrings Escapable) ∧
      ((toValue t).AllStrings Escapable → t.allText cc pretty = t.text cc pretty) :=
    faults_eq_zero t
  obtain ⟨hzero, hall⟩ := hescapable
  refine ⟨htext.trans hinit.1, hfaults.trans hinit.2, fun hcall => ?_, hzero, fun hesc => ?_⟩
  · exact closed_rest (closing_each (closing_init t pretty) rfl hcall)
  · have hnone : (Serializer.init t pretty).faults cc = 0 := hinit.2.trans (hzero.mpr hesc)
    rw [← hall hesc, ← hinit.1]
    exact takes_each hnone rfl

/-- Of `["\f",{}]` the string is reported, and the comma behind it written. -/
example : (Container.array [.string [0x0c], .object []]).allText .binary false =
      [0x5b, 0x2c, 0x7b, 0x7d, 0x5d, 0x0a] ∧
    (Container.array [.string [0x0c], .object []]).faults .binary false = 1 := ⟨rfl, rfl⟩

/-- Of `{"\f":["\f"]}` the key is reported, and the string is not. -/
example : (Container.object [([0x0c], .array [.string [0x0c]])]).faults .binary false = 1 := rfl

end Jopp
