import Jopp.Serializer.Tokens

/-!
# Jopp.Serializer.Run

The serializer writes its pending tokens through the buffers it is given: one call is one
`Drain.flush` (`serialize_realizes`), a sequence of calls is `Drain.drive` (`serializeAll_drive`).

`Realizes` says how the result of a call and what the queue does belong together; what follows for
single calls and for runs is in the modules after this one.
-/

namespace Jopp

variable {cc : CharConv} {pretty : Bool}

/-! ## The fuel -/

theorem blockTokens_length (depth : Nat) (first : Bool) (range : List ItemPointer)
    (h : ∀ item ∈ range, ∀ d,
      (item.value.tokens cc pretty d).length + 1 ≤ 2 * item.value.nodes.length) :
    (blockTokens cc pretty depth first range).length ≤
      (range.map fun item => 2 * item.value.nodes.length).sum := by
  induction range generalizing first with
  | nil => exact Nat.le_refl 0
  | cons item range ih =>
    have hitem := h item (List.mem_cons_self ..) depth
    have hrest := ih false fun x hx => h x (List.mem_cons_of_mem _ hx)
    simp only [blockTokens, List.length_cons, List.length_append, List.map_cons, List.sum_cons]
    omega

theorem memberNodes_length (ms : List (Str × Value)) :
    2 * (memberNodes ms).length =
      ((itemPointers (.object ms)).map fun item => 2 * item.value.nodes.length).sum := by
  induction ms with
  | nil => rfl
  | cons kv ms ih =>
    simp only [memberNodes, itemPointers, List.map_cons, List.sum_cons, List.length_append] at ih ⊢
    omega

theorem itemNodes_length (vs : List Value) :
    2 * (itemNodes vs).length =
      ((itemPointers (.array vs)).map fun item => 2 * item.value.nodes.length).sum := by
  induction vs with
  | nil => rfl
  | cons v vs ih =>
    simp only [itemNodes, itemPointers, List.map_cons, List.sum_cons, List.length_append] at ih ⊢
    omega

theorem tokens_length (cc : CharConv) (pretty : Bool) (v : Value) :
    ∀ d, (v.tokens cc pretty d).length + 1 ≤ 2 * v.nodes.length := by
  induction v using Value.induct with
  | null | boolean | number | string => intro d; simp [Value.tokens, Value.nodes]
  | object ms ih =>
    intro d
    have hlen := blockTokens_length (d + 1) true (itemPointers (.object ms))
      (List.forall_mem_map.mpr ih)
    rw [← memberNodes_length] at hlen
    simp only [Value.tokens, memberTokens_eq, Value.nodes, List.length_append, List.length_cons,
      List.length_nil]
    omega
  | array vs ih =>
    intro d
    have hlen := blockTokens_length (d + 1) true (itemPointers (.array vs))
      (List.forall_mem_map.mpr ih)
    rw [← itemNodes_length] at hlen
    simp only [Value.tokens, elementTokens_eq, Value.nodes, List.length_append, List.length_cons,
      List.length_nil]
    omega

theorem pendingTokens_length (contexts : List SerializerContext) :
    (pendingTokens cc pretty contexts).length ≤ (contexts.map SerializerContext.work).sum := by
  induction contexts with
  | nil => exact Nat.le_refl 0
  | cons context rest ih =>
    have hblock := blockTokens_length (rest.length + 1) context.firstItem context.range
      fun item _ => tokens_length cc pretty item.value
    simp only [pendingTokens, List.length_append, List.length_cons, List.map_cons, List.sum_cons,
      SerializerContext.work]
    omega

/-! ## One call is one flush -/

theorem writeBuffer_eq (src : Str) (dest : Nat) :
    writeBuffer src dest = ⟨src.take dest, src.drop dest, dest - src.length⟩ := by
  show (⟨src.take (min src.length dest), src.drop (min src.length dest),
    dest - min src.length dest⟩ : WriteBufferResult) = _
  rcases Nat.le_total dest src.length with h | h
  · rw [Nat.min_eq_right h, Nat.sub_self, Nat.sub_eq_zero_of_le h]
  · rw [Nat.min_eq_left h, List.take_length, List.drop_length, List.take_of_length_le h,
      List.drop_eq_nil_of_le h]

/-- The call whose buffer already holds `written` ends the way the flush of the rest does. -/
def Realizes (cc : CharConv) (pretty : Bool) (written : Str) :
    Drain.Flushed Byte → SerializeOutcome → Prop
  | .full w pending queue, .returned w' .bufferIsFull s =>
    w' = written ++ w ∧ s.rangeToWrite = pending ∧ s.prettyPrint = pretty ∧
      pendingTokens cc pretty s.contexts = queue
  | .done w, .returned w' .completed _ => w' = written ++ w
  | .failed w, .returned w' .illegalCharInString _ => w' = written ++ w
  | _, _ => False

theorem Realizes.prepend {written w : Str} {r : Drain.Flushed Byte} {o : SerializeOutcome}
    (h : Realizes cc pretty (written ++ w) r o) : Realizes cc pretty written (r.prepend w) o := by
  unfold Realizes at h
  split at h
  · exact ⟨by rw [h.1, List.append_assoc], h.2⟩
  · exact h.trans (List.append_assoc ..)
  · exact h.trans (List.append_assoc ..)
  · exact h.elim

theorem Realizes.of_full {written w pending : Str} {queue : Drain.Queue Byte}
    {o : SerializeOutcome} (h : Realizes cc pretty written (.full w pending queue) o) :
    ∃ s, o = .returned (written ++ w) .bufferIsFull s ∧ s.rangeToWrite = pending ∧
      s.prettyPrint = pretty ∧ pendingTokens cc pretty s.contexts = queue := by
  cases o with
  | outOfFuel => exact h.elim
  | returned w' ec s =>
    cases ec with
    | bufferIsFull =>
      exact ⟨s, congrArg (SerializeOutcome.returned · .bufferIsFull s) h.1, h.2⟩
    | completed => exact h.elim
    | illegalCharInString => exact h.elim

theorem Realizes.of_done {written w : Str} {o : SerializeOutcome}
    (h : Realizes cc pretty written (.done w) o) :
    ∃ s, o = .returned (written ++ w) .completed s := by
  cases o with
  | outOfFuel => exact h.elim
  | returned w' ec s =>
    cases ec with
    | completed => exact ⟨s, congrArg (SerializeOutcome.returned · .completed s) h⟩
    | bufferIsFull => exact h.elim
    | illegalCharInString => exact h.elim

theorem Realizes.of_failed {written w : Str} {o : SerializeOutcome}
    (h : Realizes cc pretty written (.failed w) o) :
    ∃ s, o = .returned (written ++ w) .illegalCharInString s := by
  cases o with
  | outOfFuel => exact h.elim
  | returned w' ec s =>
    cases ec with
    | illegalCharInString =>
      exact ⟨s, congrArg (SerializeOutcome.returned · .illegalCharInString s) h⟩
    | bufferIsFull => exact h.elim
    | completed => exact h.elim

theorem Realizes.returned {written : Str} {r : Drain.Flushed Byte} {o : SerializeOutcome}
    (h : Realizes cc pretty written r o) : ∃ w ec s, o = .returned w ec s := by
  cases o with
  | outOfFuel => cases r <;> exact h.elim
  | returned w ec s => exact ⟨w, ec, s, rfl⟩

theorem serializeLoop_realizes (cc : CharConv) :
    ∀ (fuel cap : Nat) (written : Str) (s : Serializer),
      (pendingTokens cc s.prettyPrint s.contexts).length + 2 ≤ fuel →
      Realizes cc s.prettyPrint written
        (Drain.flush cap s.rangeToWrite (pendingTokens cc s.prettyPrint s.contexts))
        (serializeLoop cc fuel cap written s) := by
  intro fuel
  induction fuel with
  | zero => intro cap written s hf; omega
  | succ fuel ih =>
    intro cap written s hf
    by_cases h₀ : cap = 0
    · -- no room left
      have hflush : ∀ queue, Drain.flush cap s.rangeToWrite queue =
          .full [] s.rangeToWrite queue := by
        intro queue
        cases queue <;> simp [Drain.flush, h₀]
      rw [hflush]
      simp only [serializeLoop, h₀, if_true]
      exact ⟨(List.append_nil _).symm, rfl, rfl, rfl⟩
    simp only [serializeLoop, h₀, if_false, writeBuffer_eq]
    cases hc : s.contexts with
    | nil =>
      simp only [pendingTokens, Drain.flush, h₀, if_false]
      rfl
    | cons current rest =>
      have hfill := fill_cases cc { s with rangeToWrite := s.rangeToWrite.drop cap } hc
      simp only [hc] at hfill hf ⊢
      by_cases h₁ : cap < s.rangeToWrite.length
      · -- the buffer is full before the pending text is out
        have hne : (s.rangeToWrite.drop cap).length ≠ 0 := by
          rw [List.length_drop]
          omega
        have hroom : cap - s.rangeToWrite.length = 0 := by omega
        obtain ⟨f, rfl⟩ : ∃ f, fuel = f + 1 := ⟨fuel - 1, by omega⟩
        rw [if_neg hne, hroom]
        rcases hfill with ⟨tok, s', -, -, -, hpending⟩ | ⟨s', queue, -, hpending⟩ <;>
        · rw [hpending]
          simp only [Drain.flush, h₀, h₁, if_false, if_true, serializeLoop]
          exact ⟨rfl, rfl, rfl, hpending⟩
      · -- all of it is out, and the next token is taken
        have hnil : s.rangeToWrite.drop cap = [] := List.drop_eq_nil_of_le (by omega)
        have hall : s.rangeToWrite.take cap = s.rangeToWrite := List.take_of_length_le (by omega)
        rw [hnil] at hfill
        rw [hnil, hall, if_pos List.length_nil]
        rcases hfill with ⟨tok, s', hok, htok, hpretty, hpending⟩ | ⟨s', queue, herr, hpending⟩
        · rw [hpending] at hf ⊢
          have hrun := ih (cap - s.rangeToWrite.length) (written ++ s.rangeToWrite) s'
            (by rw [hpretty]; simp only [List.length_cons] at hf; omega)
          rw [htok, hpretty] at hrun
          simp only [Drain.flush, h₀, h₁, if_false, hok]
          exact hrun.prepend
        · rw [hpending]
          simp only [Drain.flush, h₀, h₁, if_false, herr]
          rfl

theorem serialize_realizes (cc : CharConv) (s : Serializer) (cap : Nat) :
    Realizes cc s.prettyPrint []
      (Drain.flush cap s.rangeToWrite (pendingTokens cc s.prettyPrint s.contexts))
      (serialize cc s cap) :=
  serializeLoop_realizes cc _ cap [] s (Nat.add_le_add_right (pendingTokens_length s.contexts) 2)

theorem serialize_returned (cc : CharConv) (s : Serializer) (cap : Nat) :
    ∃ w ec s', serialize cc s cap = .returned w ec s' :=
  (serialize_realizes cc s cap).returned

/-! ## A sequence of calls -/

def verdictCode : Drain.Verdict → SerializerErrorCode
  | .full => .bufferIsFull
  | .done => .completed
  | .failed => .illegalCharInString

theorem serializeAll_drive (cc : CharConv) :
    ∀ (caps : List Nat) (s : Serializer),
      let d := Drain.drive s.rangeToWrite (pendingTokens cc s.prettyPrint s.contexts) caps
      ∃ s', serializeAll cc s caps = .returned d.1 (verdictCode d.2) s' := by
  intro caps
  induction caps with
  | nil => intro s; exact ⟨s, rfl⟩
  | cons cap caps ih =>
    intro s
    have hcall := serialize_realizes cc s cap
    simp only [Drain.drive, serializeAll]
    generalize Drain.flush cap s.rangeToWrite (pendingTokens cc s.prettyPrint s.contexts) = r
      at hcall ⊢
    generalize serialize cc s cap = o at hcall ⊢
    unfold Realizes at hcall
    split at hcall
    · obtain ⟨rfl, rfl, hpretty, rfl⟩ := hcall
      rename_i w w' s'
      obtain ⟨s'', hrest⟩ := ih s'
      rw [hpretty] at hrest
      simp only [if_true, hrest]
      exact ⟨s'', rfl⟩
    · subst hcall
      exact ⟨_, rfl⟩
    · subst hcall
      exact ⟨_, rfl⟩
    · exact hcall.elim

theorem init_rangeToWrite (c : Container) (pretty : Bool) :
    (Serializer.init c pretty).rangeToWrite = c.openText pretty := by
  cases c <;> rfl

theorem init_pendingTokens (cc : CharConv) (c : Container) (pretty : Bool) :
    pendingTokens cc pretty (Serializer.init c pretty).contexts = c.tokens cc pretty 0 := by
  show pendingTokens cc pretty [makeSerializerContext c] = _
  rw [pendingTokens_make]
  exact List.append_nil _

theorem run_drive (cc : CharConv) (c : Container) (pretty : Bool) (caps : List Nat) :
    let d := Drain.drive (c.openText pretty) (c.tokens cc pretty 0) caps
    ∃ s, serializeAll cc (Serializer.init c pretty) caps = .returned d.1 (verdictCode d.2) s := by
  have hrun := serializeAll_drive cc caps (Serializer.init c pretty)
  rw [init_rangeToWrite] at hrun
  show ∃ s, _
  rw [← init_pendingTokens]
  exact hrun

end Jopp
