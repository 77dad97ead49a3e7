import Jopp.Serializer.Verdict

/-!
# Jopp.Serializer.Progress

What a call of `serializer::serialize` needs: buffer, time and stack.

`PassBranch` has one constructor for each way through the body of the loop. The bytes a pass writes
come out of the room left in the buffer (`serialize_room`), and a context is pushed only for a
container nested one level deeper than the one around it (`Nested`). `serialize_progress` puts this
together with what is known about whole runs.
-/

namespace Jopp

variable {cc : CharConv} {s s' : Serializer} {cap : Nat} {written : Str}

/-! ## One pass of the loop -/

/-- How one pass of the loop ends: with a `return`, or at the head of the loop. -/
inductive PassResult where
  | done (o : SerializeOutcome)
  | next (outputBuffer : Nat) (written : Str) (s : Serializer)

def serializePass (cc : CharConv) (outputBuffer : Nat) (written : Str) (s : Serializer) :
    PassResult :=
  if outputBuffer = 0 then .done (.returned written .bufferIsFull s)
  else
    let res := writeBuffer s.rangeToWrite outputBuffer
    let s := { s with rangeToWrite := res.src }
    let outputBuffer := res.dest
    let written := written ++ res.written
    match s.contexts with
    | [] => .done (.returned written .completed s)
    | current :: rest =>
      if s.rangeToWrite.length = 0 then
        match fill cc s current rest with
        | .error s => .done (.returned written .illegalCharInString s)
        | .ok s => .next outputBuffer written s
      else .next outputBuffer written s

theorem serializeLoop_pass (fuel : Nat) :
    serializeLoop cc (fuel + 1) cap written s =
      match serializePass cc cap written s with
      | .done o => o
      | .next cap written s => serializeLoop cc fuel cap written s := by
  simp only [serializeLoop, serializePass]
  by_cases hcap : cap = 0
  · rw [if_pos hcap, if_pos hcap]
  rw [if_neg hcap, if_neg hcap]
  cases hc : s.contexts with
  | nil => rfl
  | cons current rest =>
    by_cases hsrc : (writeBuffer s.rangeToWrite cap).src.length = 0
    · simp only [if_pos hsrc]
      cases fill cc { s with
        rangeToWrite := (writeBuffer s.rangeToWrite cap).src
        contexts := current :: rest } current rest <;> rfl
    · simp only [if_neg hsrc]

inductive PassBranch (cc : CharConv) (s : Serializer) (cap : Nat) (written : Str) :
    PassResult → Prop where
  | full (hcap : cap = 0) : PassBranch cc s cap written (.done (.returned written .bufferIsFull s))
  | completed (hcap : 0 < cap) (hc : s.contexts = []) :
      PassBranch cc s cap written
        (.done (.returned (written ++ s.rangeToWrite.take cap) .completed
          { s with rangeToWrite := s.rangeToWrite.drop cap }))
  | cut (hcap : 0 < cap) (hlt : cap < s.rangeToWrite.length) :
      PassBranch cc s cap written
        (.next 0 (written ++ s.rangeToWrite.take cap)
          { s with rangeToWrite := s.rangeToWrite.drop cap })
  | filled (hle : s.rangeToWrite.length ≤ cap) {current : SerializerContext}
      {rest : List SerializerContext} {s' : Serializer} (hc : s.contexts = current :: rest)
      (hf : fill cc { s with rangeToWrite := [] } current rest = .ok s') :
      PassBranch cc s cap written
        (.next (cap - s.rangeToWrite.length) (written ++ s.rangeToWrite) s')
  | illegal (hle : s.rangeToWrite.length ≤ cap) {current : SerializerContext}
      {rest : List SerializerContext} {s' : Serializer} (hc : s.contexts = current :: rest)
      (hf : fill cc { s with rangeToWrite := [] } current rest = .error s') :
      PassBranch cc s cap written
        (.done (.returned (written ++ s.rangeToWrite) .illegalCharInString s'))

theorem serializePass_branch (cc : CharConv) (cap : Nat) (written : Str) (s : Serializer) :
    PassBranch cc s cap written (serializePass cc cap written s) := by
  unfold serializePass
  by_cases hcap : cap = 0
  · rw [if_pos hcap]
    exact .full hcap
  rw [if_neg hcap]
  have hpos : 0 < cap := Nat.pos_of_ne_zero hcap
  simp only [writeBuffer_eq]
  cases hc : s.contexts with
  | nil =>
    simp only []
    rw [← hc]
    exact .completed hpos hc
  | cons current rest =>
    simp only [List.length_drop]
    by_cases hlt : cap < s.rangeToWrite.length
    · rw [if_neg (by omega), Nat.sub_eq_zero_of_le (Nat.le_of_lt hlt), ← hc]
      exact .cut hpos hlt
    · have hle : s.rangeToWrite.length ≤ cap := by omega
      rw [if_pos (by omega), List.take_of_length_le hle, List.drop_eq_nil_of_le hle, ← hc]
      cases hf : fill cc { s with rangeToWrite := [] } current rest with
      | error s' => exact .illegal hle hc hf
      | ok s' => exact .filled hle hc hf

theorem serializeLoop_inv {I : Nat → Str → Serializer → Prop}
    {P : Str → SerializerErrorCode → Serializer → Prop}
    (hnext : ∀ cap w s cap' w' s', I cap w s →
      serializePass cc cap w s = .next cap' w' s' → I cap' w' s')
    (hdone : ∀ cap w s w' ec s', I cap w s →
      serializePass cc cap w s = .done (.returned w' ec s') → P w' ec s')
    {fuel : Nat} {w : Str} {ec : SerializerErrorCode} (hI : I cap written s)
    (h : serializeLoop cc fuel cap written s = .returned w ec s') : P w ec s' := by
  induction fuel generalizing cap written s with
  | zero => cases h
  | succ fuel ih =>
    rw [serializeLoop_pass] at h
    cases hpass : serializePass cc cap written s with
    | done o =>
      rw [hpass] at h
      obtain rfl : o = .returned w ec s' := h
      exact hdone _ _ _ _ _ _ hI hpass
    | next cap' w' s'' =>
      rw [hpass] at h
      exact ih (hnext _ _ _ _ _ _ hI hpass) h

/-! ## Room -/

/-- A call writes as many bytes as fit, and says that the buffer is full when it is. -/
theorem serialize_room {w : Str} {ec : SerializerErrorCode}
    (h : serialize cc s cap = .returned w ec s') :
    w.length ≤ cap ∧ (ec = .bufferIsFull → w.length = cap) := by
  refine serializeLoop_inv (I := fun left w _ => left + w.length = cap)
    (P := fun w ec _ => w.length ≤ cap ∧ (ec = .bufferIsFull → w.length = cap))
    (fun left w t left' w' t' hI hpass => ?_) (fun left w t w' ec t' hI hpass => ?_) (by simp) h
  · have hb := serializePass_branch cc left w t
    rw [hpass] at hb
    cases hb with
    | cut hcap hlt =>
      rw [List.length_append, List.length_take]
      omega
    | filled hle hc hf =>
      rw [List.length_append]
      omega
  · have hb := serializePass_branch cc left w t
    rw [hpass] at hb
    cases hb with
    | full hcap => exact ⟨by omega, fun _ => by omega⟩
    | completed hcap hc =>
      rw [List.length_append, List.length_take]
      exact ⟨by omega, fun he => by cases he⟩
    | illegal hle hc hf =>
      rw [List.length_append]
      exact ⟨by omega, fun he => by cases he⟩

/-! ## The stack -/

/-- What `fill` does to the stack: it pops a context that has nothing left, or takes an item off
the top one, and then may push a context for that item. -/
theorem fill_contexts {current : SerializerContext} {rest : List SerializerContext}
    (h : fill cc s current rest = .ok s' ∨ fill cc s current rest = .error s') :
    (current.range = [] ∧ s'.contexts = rest) ∨
    ∃ item range, current.range = item :: range ∧
      (s'.contexts = { current with range := range, firstItem := false } :: rest ∨
        ∃ c, toValue c = item.value ∧ s'.contexts = makeSerializerContext c ::
          { current with range := range, firstItem := false } :: rest) := by
  cases hr : current.range with
  | nil =>
    left
    simp only [fill, hr] at h
    rcases h with h | h
    · cases h
      exact ⟨rfl, rfl⟩
    · cases h
  | cons item range =>
    refine .inr ⟨item, range, rfl, ?_⟩
    simp only [fill, hr] at h
    split at h
    · rcases h with h | h
      · cases h
      · cases h
        exact .inl rfl
    split at h
    · rcases h with h | h
      · cases h
      · cases h
        exact .inl rfl
    · rename_i t hval
      rcases h with h | h
      · cases h
        cases hv : item.value <;> simp only [hv, appendValue] at hval
        case string str =>
          split at hval
          · cases hval
          · cases hval
            exact .inl rfl
        case object ms =>
          cases hval
          exact .inr ⟨.object ms, rfl, rfl⟩
        case array vs =>
          cases hval
          exact .inr ⟨.array vs, rfl, rfl⟩
        all_goals
          cases hval
          exact .inl rfl
      · cases h

/-- The items still to come in each context leave room for the contexts below them. -/
def Nested (d : Nat) : List SerializerContext → Prop
  | [] => True
  | context :: rest => rest.length + 1 ≤ d ∧
      (∀ item ∈ context.range, item.value.depth + (rest.length + 1) ≤ d) ∧ Nested d rest

theorem Nested.length_le {d : Nat} : ∀ {contexts : List SerializerContext},
    Nested d contexts → contexts.length ≤ d
  | [], _ => Nat.zero_le d
  | _ :: _, h => h.1

theorem nested_make {d : Nat} {c : Container} {rest : List SerializerContext}
    (hc : (toValue c).depth + rest.length ≤ d) (hrest : Nested d rest) :
    Nested d (makeSerializerContext c :: rest) := by
  have hpos : 0 < (toValue c).depth := by cases c <;> exact Nat.succ_pos _
  refine ⟨by omega, ?_, hrest⟩
  cases c with
  | object ms =>
    refine List.forall_mem_map.mpr fun kv hkv => ?_
    have := memberDepth_le.mp (Nat.le_refl (memberDepth ms)) kv hkv
    simp only [toValue, Value.depth] at hc ⊢
    omega
  | array vs =>
    refine List.forall_mem_map.mpr fun v hv => ?_
    have := itemDepth_le.mp (Nat.le_refl (itemDepth vs)) v hv
    simp only [toValue, Value.depth] at hc ⊢
    omega

theorem nested_fill {d : Nat} {current : SerializerContext} {rest : List SerializerContext}
    (h : fill cc s current rest = .ok s' ∨ fill cc s current rest = .error s')
    (hd : Nested d (current :: rest)) : Nested d s'.contexts := by
  obtain ⟨hlen, hitems, hrest⟩ := hd
  rcases fill_contexts h with ⟨-, hs'⟩ | ⟨item, range, hr, hs'⟩
  · rw [hs']
    exact hrest
  · rw [hr, List.forall_mem_cons] at hitems
    have hnext : Nested d ({ current with range := range, firstItem := false } :: rest) :=
      ⟨hlen, hitems.2, hrest⟩
    rcases hs' with hs' | ⟨c, hc, hs'⟩
    · rw [hs']
      exact hnext
    · rw [hs']
      refine nested_make ?_ hnext
      rw [hc]
      exact hitems.1

/-- The states of a serializer over `root`, at the head of the loop and between calls. -/
inductive Serializer.Visited (cc : CharConv) (root : Container) (prettyPrint : Bool) :
    Serializer → Prop where
  | init : Visited cc root prettyPrint (Serializer.init root prettyPrint)
  | next {s s' : Serializer} {cap cap' : Nat} {w w' : Str} (h : Visited cc root prettyPrint s)
      (hpass : serializePass cc cap w s = .next cap' w' s') : Visited cc root prettyPrint s'
  | done {s s' : Serializer} {cap : Nat} {w w' : Str} {ec : SerializerErrorCode}
      (h : Visited cc root prettyPrint s)
      (hpass : serializePass cc cap w s = .done (.returned w' ec s')) :
      Visited cc root prettyPrint s'

theorem visited_serialize {root : Container} {pretty : Bool} {w : Str} {ec : SerializerErrorCode}
    (h : s.Visited cc root pretty) (hcall : serialize cc s cap = .returned w ec s') :
    s'.Visited cc root pretty :=
  serializeLoop_inv (I := fun _ _ t => t.Visited cc root pretty)
    (P := fun _ _ t => t.Visited cc root pretty) (fun _ _ _ _ _ _ hI hpass => .next hI hpass)
    (fun _ _ _ _ _ _ hI hpass => .done hI hpass) h hcall

theorem visited_nested {root : Container} {pretty : Bool} (h : s.Visited cc root pretty) :
    Nested root.depth s.contexts := by
  induction h with
  | init => exact nested_make (Nat.le_refl _) trivial
  | @next s s' cap cap' w w' _ hpass ih =>
    have hb := serializePass_branch cc cap w s
    rw [hpass] at hb
    cases hb with
    | cut hcap hlt => exact ih
    | filled hle hc hf =>
      rw [hc] at ih
      exact nested_fill (.inl hf) ih
  | @done s s' cap w w' ec _ hpass ih =>
    have hb := serializePass_branch cc cap w s
    rw [hpass] at hb
    cases hb with
    | full hcap => exact ih
    | completed hcap hc => exact ih
    | illegal hle hc hf =>
      rw [hc] at ih
      exact nested_fill (.inr hf) ih

/-! ## Whole runs -/

/-- Buffers that are not empty come to an end, one more of them than there are bytes to write. -/
theorem serializeAll_ends (cc : CharConv) (c : Container) (pretty : Bool) {sizes : Nat → Nat}
    (hsizes : ∀ i, 0 < sizes i) :
    ∃ w ec s, serializeAll cc (Serializer.init c pretty)
        ((List.range ((c.text cc pretty).length + 1)).map sizes) = .returned w ec s ∧
      ec ≠ .bufferIsFull := by
  have hle : Drain.decisive (c.openText pretty) (c.tokens cc pretty 0) ≤
      (c.text cc pretty).length := Drain.decisive_le _ _
  have hroom := le_sum_sizes hsizes ((c.text cc pretty).length + 1)
  obtain ⟨s, hs⟩ := run_drive cc c pretty
    ((List.range ((c.text cc pretty).length + 1)).map sizes)
  refine ⟨_, _, s, hs, ?_⟩
  rcases Drain.drive_settles (c.openText pretty) (c.tokens cc pretty 0)
    ((List.range ((c.text cc pretty).length + 1)).map sizes) (by omega) with ⟨-, k, -, hd⟩ | ⟨-, hd⟩
  · rw [hd]
    exact fun he => by cases he
  · rw [hd]
    exact fun he => by cases he

/-- **Progress.** Every call returns, from any state, has stayed within its buffer, and has filled
it if it says so; so a run over buffers that are not empty takes one call more, at most, than a
large buffer would receive bytes. The stack is never higher than the tree is deep. -/
theorem serialize_progress (cc : CharConv) (c : Container) (pretty : Bool) :
    (∀ (s : Serializer) cap, ∃ w ec s', serialize cc s cap = .returned w ec s' ∧ w.length ≤ cap ∧
      (ec = .bufferIsFull → w.length = cap) ∧
      (s.Visited cc c pretty → s'.Visited cc c pretty)) ∧
    (∀ s : Serializer, s.Visited cc c pretty → s.contexts.length ≤ c.depth) ∧
    ∃ n, (∀ big, n < big → ∃ w ec s, serialize cc (Serializer.init c pretty) big =
        .returned w ec s ∧ ec ≠ .bufferIsFull ∧ w.length = n) ∧
      ∀ sizes : Nat → Nat, (∀ i, 0 < sizes i) → ∃ calls ≤ n + 1, ∃ w ec s,
        serializeAll cc (Serializer.init c pretty) ((List.range calls).map sizes) =
          .returned w ec s ∧ ec ≠ .bufferIsFull := by
  refine ⟨fun s cap => ?_, fun s hs => (visited_nested hs).length_le,
    (c.text cc pretty).length, fun big hbig => ?_, fun sizes hsizes => ?_⟩
  · obtain ⟨w, ec, s', hcall⟩ := serialize_returned cc s cap
    obtain ⟨hle, hfull⟩ := serialize_room hcall
    exact ⟨w, ec, s', hcall, hle, hfull, fun hs => visited_serialize hs hcall⟩
  · obtain ⟨s, hcall⟩ := serialize_enough cc c pretty hbig
    exact ⟨_, _, s, hcall, by split <;> decide, rfl⟩
  · exact ⟨_, Nat.le_refl _, serializeAll_ends cc c pretty hsizes⟩

end Jopp
