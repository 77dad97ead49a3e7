import Jopp.Parser.Chunks

/-!
# Jopp.Parser.Stored

What a parser keeps of its input. The members of every object it builds stay in key order
(`ordered_scan`), and all it holds at any time, the values of the open containers, the pending keys
and the buffer together, weighs no more than the bytes it has read (`parse_weight`). A value weighs
one, and one more for each byte of a string or key in it.
-/

namespace Jopp

open Resumable

/-! ## Weight -/

mutual

def Value.weight : Value → Nat
  | .object ms => memberWeight ms + 1
  | .array vs => itemWeight vs + 1
  | .string s => s.length + 1
  | _ => 1
termination_by structural v => v

def memberWeight : List (Str × Value) → Nat
  | [] => 0
  | (k, v) :: ms => k.length + v.weight + memberWeight ms
termination_by structural ms => ms

def itemWeight : List Value → Nat
  | [] => 0
  | v :: vs => v.weight + itemWeight vs
termination_by structural vs => vs

end

def Container.weight (c : Container) : Nat := (toValue c).weight

def ParserContext.weight (context : ParserContext) : Nat :=
  context.key.length + context.value.weight

def Parser.weight (p : Parser) : Nat :=
  p.buffer.length + (p.contexts.map ParserContext.weight).sum

theorem memberWeight_eq_sum (ms : List (Str × Value)) :
    memberWeight ms = (ms.map fun kv => kv.1.length + kv.2.weight).sum := by
  induction ms with
  | nil => rfl
  | cons kv ms ih => simp only [memberWeight, List.map_cons, List.sum_cons, ih]

theorem itemWeight_eq_sum (vs : List Value) :
    itemWeight vs = (vs.map Value.weight).sum := by
  induction vs with
  | nil => rfl
  | cons v vs ih => simp only [itemWeight, List.map_cons, List.sum_cons, ih]

theorem insert_memberWeight (k : Str) (v : Value) (ms : List (Str × Value)) :
    memberWeight (SortedMap.insert k v ms).1 ≤ k.length + v.weight + memberWeight ms := by
  cases h : (SortedMap.insert k v ms).2 with
  | false =>
    rw [SortedMap.insert_refused h]
    omega
  | true =>
    have hperm := (SortedMap.insert_perm h).map fun kv => kv.1.length + kv.2.weight
    rw [memberWeight_eq_sum, hperm.sum_nat, List.map_cons, List.sum_cons, ← memberWeight_eq_sum]

/-- What is stored weighs what was there and the value. -/
theorem storeValue_weight (parent : ParserContext) (val : Value) :
    (storeValue parent val).1.weight ≤ parent.weight + val.weight := by
  have hkey := storeValue_key parent val
  unfold ParserContext.weight
  rw [hkey]
  cases h : parent.value with
  | object ms =>
    have hinsert := insert_memberWeight parent.key val ms
    rw [(storeValue_object val h).1]
    simp only [Container.weight, toValue, Value.weight, List.length_nil]
    omega
  | array vs =>
    rw [(storeValue_array val h).1]
    simp only [Container.weight, toValue, Value.weight, itemWeight_eq_sum, List.map_append,
      List.map_cons, List.map_nil, List.sum_append, List.sum_cons, List.sum_nil, List.length_nil]
    omega

theorem makeValue_weight {cc : CharConv} {w : Str} {val : Value} (h : makeValue cc w = some val) :
    val.weight = 1 := by
  rcases makeValue_cases h with ⟨-, rfl⟩ | ⟨-, rfl⟩ | ⟨-, rfl⟩ | ⟨x, -, rfl⟩ <;> rfl

/-- The parser holds no more than the `n` bytes it has read, and the first of a literal. -/
def Parser.Light (p : Parser) (n : Nat) : Prop :=
  p.weight ≤ n ∧ (p.currentState = .literal → p.buffer ≠ [])

section

variable {cc : CharConv} {p : Parser} {ch : Byte} {n : Nat} {top : ParserContext}
  {rest : List ParserContext}

theorem weight_cons (hc : p.contexts = top :: rest) :
    p.weight = p.buffer.length + (top.weight + (rest.map ParserContext.weight).sum) := by
  unfold Parser.weight
  rw [hc, List.map_cons, List.sum_cons]

theorem light_put {q : Parser} (val : Value) (hctx : q.contexts = (p.put top rest val).contexts)
    (hs : q.currentState = (p.put top rest val).currentState)
    (hle : q.buffer.length + (top.weight + val.weight + (rest.map ParserContext.weight).sum) ≤ n) :
    q.Light n := by
  have hstore := storeValue_weight top val
  have hweight := weight_cons hctx
  refine ⟨by omega, fun hlit => ?_⟩
  rw [hs, Parser.put_currentState] at hlit
  rcases storeValue_kind top val with ⟨_, _, -, -, hn⟩ | ⟨_, _, -, -, hn⟩ <;>
  · rw [hn] at hlit
    cases hlit

theorem weight_refused {q : Parser} {val : Value} (hr : refuses top val = true)
    (hctx : q.contexts = (storeValue top val).1 :: rest)
    (hle : q.buffer.length + (top.weight + (rest.map ParserContext.weight).sum) ≤ n) :
    q.weight ≤ n := by
  have hweight := weight_cons hctx
  have hstored : (storeValue top val).1.weight ≤ top.weight := by
    unfold ParserContext.weight
    rw [storeValue_key, storeValue_refused hr]
    exact Nat.add_le_add_right (Nat.zero_le _) _
  omega

theorem light_branch {flow : Flow} (h : p.Light n) (hb : Branch cc p ch flow) :
    flow.SatRead (fun n _ => n + 1) Parser.Light
      (fun q e n _ => q.weight ≤ n + 1 ∧ (e = some .completed → q.root.weight ≤ n + 1)) p n ch := by
  obtain ⟨hle, hlit⟩ := h
  cases hb with
  | blank hs hch => exact ⟨Nat.le_succ_of_le hle, hlit⟩
  | openArray hs hch hd | openObject hs hch hd =>
    refine ⟨?_, nofun⟩
    simp only [Parser.weight, List.map_cons, List.sum_cons, ParserContext.weight, Container.weight,
      toValue, Value.weight, itemWeight, memberWeight, List.length_nil] at hle ⊢
    omega
  | endInValue hs hch => exact ⟨hle, nofun⟩
  | openString hs hch hc => exact ⟨Nat.le_succ_of_le hle, nofun⟩
  | openLiteral hs hch ha ho he hq hc =>
    refine ⟨?_, fun _ => by simp⟩
    simp only [Parser.weight, List.length_append, List.length_cons, List.length_nil] at hle ⊢
    omega
  | literalChar hs hch =>
    refine ⟨?_, fun _ => by simp⟩
    simp only [Parser.weight, List.length_append, List.length_cons, List.length_nil] at hle ⊢
    omega
  | literalBlank hs hch hc hv hr =>
    rename_i top rest val
    have hval := makeValue_weight hv
    have hpos := List.length_pos_iff.mpr (hlit hs)
    rw [weight_cons hc] at hle
    refine light_put (p := p) val rfl rfl ?_
    simp only [List.length_nil]
    omega
  | literalBack hs hch hw hc hv hr =>
    rename_i top rest val
    have hval := makeValue_weight hv
    have hpos := List.length_pos_iff.mpr (hlit hs)
    rw [weight_cons hc] at hle
    refine light_put (p := p) val rfl rfl ?_
    simp only [List.length_nil]
    omega
  | literalRefused hs hch hc hv hr | stringRefused hs hch hc hr =>
    rw [weight_cons hc] at hle
    exact ⟨weight_refused hr rfl (Nat.le_succ_of_le hle), nofun⟩
  | rawChar hs hch =>
    refine ⟨?_, fun _ => by simp⟩
    simp only [Parser.weight, List.length_append, List.length_cons, List.length_nil] at hle ⊢
    omega
  | beginEsc hs hch =>
    refine ⟨Nat.le_succ_of_le hle, fun hlit' => ?_⟩
    generalize p.currentState = s at hs
    cases hs <;> cases hlit'
  | escChar hs hch =>
    refine ⟨?_, fun _ => by simp⟩
    simp only [Parser.weight, List.length_append, List.length_cons, List.length_nil] at hle ⊢
    omega
  | closeString hs hch hc hr =>
    rename_i top rest
    rw [weight_cons hc] at hle
    refine light_put (p := p) (.string p.buffer) rfl rfl ?_
    simp only [List.length_nil, Value.weight]
    omega
  | openKey hs hch | colon hs hch | commaObject hs hch | commaArray hs hch =>
    exact ⟨Nat.le_succ_of_le hle, nofun⟩
  | endInBeforeKey hs hch => exact ⟨hle, nofun⟩
  | closeKey hs hch hc =>
    rename_i top rest
    rw [weight_cons hc] at hle
    refine ⟨?_, nofun⟩
    simp only [Parser.weight, List.map_cons, List.sum_cons, ParserContext.weight,
      List.length_nil] at hle ⊢
    omega
  | closeContainer hs hc hr =>
    rename_i current top rest
    rw [weight_cons hc, List.map_cons, List.sum_cons] at hle
    refine light_put (p := p) (toValue current.value) rfl rfl ?_
    have hcurrent : (toValue current.value).weight ≤ current.weight := Nat.le_add_left ..
    show p.buffer.length + _ ≤ n + 1
    omega
  | closeRefused hs hch hc hr =>
    rename_i current top rest
    rw [weight_cons hc, List.map_cons, List.sum_cons] at hle
    refine ⟨weight_refused hr rfl ?_, nofun⟩
    show p.buffer.length + _ ≤ n + 1
    omega
  | closeRoot hs hc =>
    rename_i current
    rw [weight_cons hc] at hle
    have hcurrent : current.value.weight ≤ current.weight := Nat.le_add_left ..
    refine ⟨?_, fun _ => ?_⟩
    · show p.buffer.length + 0 ≤ _
      omega
    · show current.value.weight ≤ _
      omega
  | tooDeep | leafAtTop | literalInvalid | rawIllegal | escIllegal | illegal =>
    exact ⟨Nat.le_succ_of_le hle, nofun⟩
  | literalEmpty | stringEmpty | keyEmpty | closeEmpty => exact ⟨Nat.le_succ_of_le hle, nofun⟩

theorem foldl_count (w : Str) (n : Nat) : w.foldl (fun n _ => n + 1) n = n + w.length := by
  induction w generalizing n with
  | nil => rfl
  | cons ch w ih =>
    rw [List.foldl_cons, ih, List.length_cons]
    omega

theorem light_scan (cc : CharConv) (root : Container) (maxLevels : Option Nat) (w : Str) :
    (∀ q, scan (step cc) (Parser.init root maxLevels) w = .more q → q.Light w.length) ∧
    (∀ q e n, scan (step cc) (Parser.init root maxLevels) w = .stopped q e n →
      q.weight ≤ n ∧ (e = some .completed → q.root.weight ≤ n)) := by
  have hinit : (Parser.init root maxLevels).Light 0 := ⟨Nat.le_refl 0, nofun⟩
  have hcount : ∀ p n ch, Parser.Light p n → Parser.Light (p.count ch) n := fun p n ch hp => by
    simpa [Parser.Light, Parser.weight] using hp
  obtain ⟨hmore, hstopped⟩ := scan_branch_foldl hcount (fun _ _ _ _ => light_branch) hinit w
  refine ⟨fun q hrun => ?_, fun q e n hrun => ?_⟩
  · have hlight := hmore q hrun
    rwa [foldl_count, Nat.zero_add] at hlight
  · obtain ⟨u, ch, v, -, hn, hle, hroot⟩ := hstopped q e n hrun
    rw [foldl_count, Nat.zero_add] at hle hroot
    subst hn
    exact ⟨hle, hroot⟩

/-- **A parser holds no more than it has read**, and a tree it completes with weighs no more. -/
theorem parse_weight (cc : CharConv) (root : Container) (maxLevels : Option Nat)
    (chunks : List Str) (res : ParseResult) (q : Parser)
    (h : parseChunks cc (Parser.init root maxLevels) chunks = .returned res q) :
    q.weight ≤ res.ptr ∧ (res.ec = .completed → q.root.weight ≤ res.ptr) := by
  rw [parseChunks_eq_parse] at h
  obtain ⟨hmore, hstopped⟩ := light_scan cc root maxLevels chunks.flatten
  rcases returned_cases h with ⟨hrun, hres⟩ | ⟨hrun, -⟩
  · subst hres
    exact ⟨(hmore q hrun).1, nofun⟩
  · obtain ⟨hle, hroot⟩ := hstopped _ _ _ hrun
    exact ⟨hle, fun hec => hroot (congrArg some hec)⟩

/-- `{"a":[1,"b"` in pieces: the parser holds an object, an array, a number, a string and two bytes
of text, having read eleven bytes. -/
theorem parse_weight_open :
    ∃ q, parseChunks .binary (Parser.init .empty none)
        [[0x7b, 0x22, 0x61, 0x22], [0x3a, 0x5b, 0x31, 0x2c, 0x22, 0x62, 0x22]] =
      .returned ⟨11, .moreDataNeeded, 1, 12⟩ q ∧ q.weight ≤ 11 := by
  have hrun : ∃ q, parseChunks .binary (Parser.init .empty none)
      [[0x7b, 0x22, 0x61, 0x22], [0x3a, 0x5b, 0x31, 0x2c, 0x22, 0x62, 0x22]] =
    .returned ⟨11, .moreDataNeeded, 1, 12⟩ q := ⟨_, rfl⟩
  obtain ⟨q, hq⟩ := hrun
  exact ⟨q, hq, (parse_weight .binary .empty none _ _ q hq).1⟩

end

/-! ## Order -/

/-- Every object among the open containers is in key order. -/
def Parser.InOrder (p : Parser) : Prop := ∀ context ∈ p.contexts, context.value.Ordered

theorem storeValue_ordered {parent : ParserContext} {val : Value} (hp : parent.value.Ordered)
    (hv : val.Ordered) : (storeValue parent val).1.value.Ordered := by
  cases h : parent.value with
  | object ms =>
    have hold : Value.Ordered (.object ms) := by
      rw [h] at hp
      exact hp
    obtain ⟨hsorted, hmembers⟩ := Value.all_object.mp hold
    rw [(storeValue_object val h).1]
    refine Value.all_object.mpr ⟨SortedMap.insert_sorted hsorted, fun kv hkv => ?_⟩
    rcases SortedMap.mem_insert hkv with rfl | hkv
    · exact hv
    · exact hmembers kv hkv
  | array vs =>
    have hold : Value.Ordered (.array vs) := by
      rw [h] at hp
      exact hp
    rw [(storeValue_array val h).1]
    refine Value.all_array.mpr ⟨trivial, fun v hmem => ?_⟩
    rcases List.mem_append.mp hmem with hmem | hmem
    · exact (Value.all_array.mp hold).2 v hmem
    · rw [List.mem_singleton.mp hmem]
      exact hv

theorem makeValue_ordered {cc : CharConv} {w : Str} {val : Value}
    (h : makeValue cc w = some val) : val.Ordered := by
  rcases makeValue_cases h with ⟨-, rfl⟩ | ⟨-, rfl⟩ | ⟨-, rfl⟩ | ⟨x, -, rfl⟩ <;>
    simp [Value.Ordered, Value.OrderedNode]

theorem inOrder_branch {cc : CharConv} {p : Parser} {ch : Byte} {flow : Flow} (h : p.InOrder)
    (hb : Branch cc p ch flow) :
    flow.Sat Parser.InOrder (fun q e => e = some .completed → q.root.Ordered) p := by
  have hput : ∀ {top : ParserContext} {rest : List ParserContext} {val : Value},
      (∀ context ∈ top :: rest, context.value.Ordered) → val.Ordered →
        ∀ context ∈ (storeValue top val).1 :: rest, context.value.Ordered := by
    intro top rest val htop hval
    rw [List.forall_mem_cons] at htop ⊢
    exact ⟨storeValue_ordered htop.1 hval, htop.2⟩
  unfold Parser.InOrder at h
  cases hb with
  | blank | endInValue | openString | openLiteral | literalChar | rawChar | beginEsc | escChar
  | openKey | endInBeforeKey | colon | commaObject | commaArray => exact h
  | openArray hs hch hd =>
    refine List.forall_mem_cons.mpr ⟨?_, h⟩
    exact Value.all_array.mpr ⟨trivial, nofun⟩
  | openObject hs hch hd =>
    refine List.forall_mem_cons.mpr ⟨?_, h⟩
    exact Value.all_object.mpr ⟨SortedMap.sorted_nil, nofun⟩
  | literalBlank hs hch hc hv hr =>
    rw [hc] at h
    exact hput h (makeValue_ordered hv)
  | literalBack hs hch hw hc hv hr =>
    rw [hc] at h
    exact hput h (makeValue_ordered hv)
  | closeString hs hch hc hr =>
    rw [hc] at h
    exact hput h (by simp [Value.Ordered, Value.OrderedNode])
  | closeKey hs hch hc =>
    rw [hc, List.forall_mem_cons] at h
    exact List.forall_mem_cons.mpr h
  | closeContainer hs hc hr =>
    rw [hc, List.forall_mem_cons] at h
    exact hput h.2 h.1
  | closeRoot hs hc =>
    rw [hc, List.forall_mem_cons] at h
    exact fun _ => h.1
  | tooDeep | leafAtTop | literalInvalid | literalRefused | rawIllegal | escIllegal | stringRefused
  | illegal | closeRefused => exact nofun
  | literalEmpty | stringEmpty | keyEmpty | closeEmpty => exact nofun

theorem ordered_scan (cc : CharConv) {p : Parser} (h : p.InOrder) (w : Str) :
    (scan (step cc) p w).Sat Parser.InOrder fun q e => e = some .completed → q.root.Ordered :=
  scan_branch_inv (I := Parser.InOrder) (fun p ch hp => by simpa [Parser.InOrder] using hp)
    (fun _ _ _ => inOrder_branch) h w

theorem parsed_ordered {cc : CharConv} {root : Container} {maxLevels : Option Nat} {w : Str}
    {res : ParseResult} {q : Parser}
    (h : parse cc (Parser.init root maxLevels) w = .returned res q) (hec : res.ec = .completed) :
    q.root.Ordered := by
  have hsat := ordered_scan cc (p := Parser.init root maxLevels) nofun w
  rw [stopped_of_completed h hec] at hsat
  exact hsat rfl

end Jopp
