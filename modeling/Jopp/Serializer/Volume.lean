import Jopp.Serializer.Salvage
import Jopp.Parser.Stored

/-!
# Jopp.Serializer.Volume

How much a serializer writes. A byte of a string becomes two at most, and around each value stand
a bounded number of delimiters and, when printing prettily, tabs. So the text of a tree is longer
than its weight by a factor at most (`allText_length`), and whatever is written of a tree that came
from a parser is longer than the input by that factor at most (`written_length`).
-/

namespace Jopp

/-- How many bytes stand around one value, with at most `depth` blocks open. -/
def around (pretty : Bool) (depth : Nat) : Nat := if pretty then depth + 6 else 4

/-- How many bytes are written for one unit of weight, where number text has at most `k` bytes. -/
def rate (k : Nat) (pretty : Bool) (depth : Nat) : Nat :=
  if pretty then k + 2 * depth + 10 else k + 4

section

variable {cc : CharConv} {pretty first : Bool} {k d depth : Nat} {key : Str} {v : Value}

theorem keyText_length {keyPart : Str} (h : keyText pretty key = some keyPart) :
    keyPart.length ≤ 2 * key.length + if pretty then 4 else 3 := by
  unfold keyText at h
  split at h
  · cases h
    exact Nat.zero_le _
  split at h
  · cases h
  rename_i wrapped hwrapped
  cases h
  have hlen := wrapString_length hwrapped
  cases pretty <;> simp <;> omega

theorem beforeItem_length (hd : depth ≤ d) :
    (beforeItem pretty depth first).length ≤ if pretty then d + 2 else 1 := by
  cases pretty <;> cases first <;> simp [beforeItem, lineBreak, indent] <;> omega

theorem closeText_le (depth : Nat) (terminator : Byte) :
    (closeText pretty depth terminator).length ≤ if pretty then depth + 3 else 2 := by
  by_cases hd : depth = 0 <;> cases pretty <;> simp [closeText, hd]

theorem scalar_length (hcc : cc.AtMost k) (hk : 5 ≤ k) (hv : v.opens = 0) {head : Str}
    (h : headText cc pretty v = some head) :
    head.length + around pretty d ≤ rate k pretty d * v.weight := by
  have hrate : k + around pretty d ≤ rate k pretty d := by
    cases pretty <;> simp only [around, rate, Bool.false_eq_true, if_true, if_false] <;> omega
  cases v with
  | object ms | array vs => cases hv
  | null =>
    cases h
    have hlen : nullToString.length ≤ 5 := by decide
    show _ ≤ rate k pretty d * 1
    omega
  | boolean b =>
    cases h
    have hlen : (booleanToString b).length ≤ 5 := by cases b <;> decide
    show _ ≤ rate k pretty d * 1
    omega
  | number x =>
    cases h
    have hlen := hcc x
    show _ ≤ rate k pretty d * 1
    omega
  | string s =>
    have hlen := wrapString_length h
    have htwo : 2 * s.length ≤ rate k pretty d * s.length :=
      Nat.mul_le_mul_right _ (by omega)
    rw [Value.weight, Nat.mul_add, Nat.mul_one]
    omega

/-! ## Trees -/

/-- What is written of a value, with the bytes around it. -/
def Value.Small (cc : CharConv) (pretty : Bool) (k d depth : Nat) (v : Value) : Prop :=
  ∀ head, headText cc pretty v = some head →
    head.length + (Drain.salvage (v.reports cc pretty depth)).length + around pretty d ≤
      rate k pretty d * v.weight

theorem itemReports_length (hk : 5 ≤ k) (hd : depth ≤ d) (h : v.Small cc pretty k d depth) :
    (Drain.salvage (itemReports cc pretty depth first key v
      (v.reports cc pretty depth))).length ≤ rate k pretty d * (key.length + v.weight) := by
  have htwo : 2 * key.length ≤ rate k pretty d * key.length := by
    refine Nat.mul_le_mul_right _ ?_
    cases pretty <;> simp only [rate, Bool.false_eq_true, if_true, if_false] <;> omega
  unfold itemReports itemToken
  cases hkey : keyText pretty key with
  | none => exact Nat.zero_le _
  | some keyPart =>
    cases hhead : headText cc pretty v with
    | none => exact Nat.zero_le _
    | some head =>
      have hbefore : (beforeItem pretty depth first).length ≤ if pretty then d + 2 else 1 :=
        beforeItem_length hd
      have hkeyPart := keyText_length hkey
      have hvalue := h head hhead
      simp only [Drain.salvage, List.length_append]
      rw [Nat.mul_add]
      cases pretty <;> simp only [around, Bool.false_eq_true, if_true, if_false] at * <;> omega

theorem blockReports_length (hk : 5 ≤ k) (hd : depth ≤ d) {range : List ItemPointer}
    (h : ∀ item ∈ range, item.value.Small cc pretty k d depth) :
    (Drain.salvage (blockReports cc pretty depth first range)).length ≤
      rate k pretty d * (range.map fun item => item.key.length + item.value.weight).sum := by
  induction range generalizing first with
  | nil => exact Nat.zero_le _
  | cons item range ih =>
    rw [List.forall_mem_cons] at h
    have hitem : (Drain.salvage (itemReports cc pretty depth first item.key item.value
        (item.value.reports cc pretty depth))).length ≤
        rate k pretty d * (item.key.length + item.value.weight) :=
      itemReports_length hk hd h.1
    have hrest : (Drain.salvage (blockReports cc pretty depth false range)).length ≤
        rate k pretty d * (range.map fun item => item.key.length + item.value.weight).sum := ih h.2
    rw [blockReports, Drain.salvage_append, List.length_append, List.map_cons, List.sum_cons,
      Nat.mul_add]
    exact Nat.add_le_add hitem hrest

theorem container_weight (c : Container) :
    c.weight = ((itemPointers c).map fun item => item.key.length + item.value.weight).sum + 1 := by
  cases c with
  | object ms =>
    simp only [Container.weight, toValue, Value.weight, memberWeight_eq_sum, itemPointers,
      List.map_map]
    rfl
  | array vs =>
    simp only [Container.weight, toValue, Value.weight, itemWeight_eq_sum, itemPointers,
      List.map_map]
    congr 3
    funext v
    exact (Nat.zero_add _).symm

theorem container_small (hk : 5 ≤ k) (c : Container) (hd : depth < d)
    (h : ∀ item ∈ itemPointers c, item.value.Small cc pretty k d (depth + 1)) :
    (c.openText pretty).length + (Drain.salvage (c.reports cc pretty depth)).length +
      around pretty d ≤ rate k pretty d * c.weight := by
  have hblock : (Drain.salvage (blockReports cc pretty (depth + 1) true (itemPointers c))).length ≤
      rate k pretty d *
        ((itemPointers c).map fun item => item.key.length + item.value.weight).sum :=
    blockReports_length hk (Nat.succ_le_of_lt hd) h
  have hclose : (closeText pretty depth c.terminator).length ≤
      if pretty then depth + 3 else 2 := closeText_le depth c.terminator
  have hopen : (c.openText pretty).length = if pretty then 2 else 1 := by cases pretty <;> rfl
  rw [container_weight, Nat.mul_add, Nat.mul_one, Container.reports, Drain.salvage_append, hopen]
  simp only [Drain.salvage, List.append_nil, List.length_append]
  generalize rate k pretty d * _ = written at hblock ⊢
  cases pretty <;> simp only [around, rate, Bool.false_eq_true, if_true, if_false] at * <;> omega

theorem itemPointers_depth (c : Container) :
    ∀ item ∈ itemPointers c, item.value.depth + 1 ≤ c.depth := by
  cases c with
  | object ms =>
    exact List.forall_mem_map.mpr fun kv hkv =>
      Nat.succ_le_succ (memberDepth_le.mp (Nat.le_refl _) kv hkv)
  | array vs =>
    exact List.forall_mem_map.mpr fun v hv =>
      Nat.succ_le_succ (itemDepth_le.mp (Nat.le_refl _) v hv)

theorem small_of_items (hk : 5 ≤ k) (c : Container) (hd : depth + c.depth ≤ d)
    (h : ∀ item ∈ itemPointers c, ∀ depth, depth + item.value.depth ≤ d →
      item.value.Small cc pretty k d depth) :
    (c.openText pretty).length + (Drain.salvage (c.reports cc pretty depth)).length +
      around pretty d ≤ rate k pretty d * c.weight := by
  have hpos := depth_pos c
  refine container_small hk c (by omega) fun item hitem => h item hitem (depth + 1) ?_
  have hle := itemPointers_depth c item hitem
  omega

theorem value_small (hcc : cc.AtMost k) (hk : 5 ≤ k) (v : Value) :
    ∀ depth, depth + v.depth ≤ d → v.Small cc pretty k d depth := by
  induction v using Value.induct with
  | null | boolean | number | string => exact fun _ _ _ hhead => scalar_length hcc hk rfl hhead
  | object ms ih =>
    intro depth hd head hhead
    cases hhead
    have hreports : (Value.object ms).reports cc pretty depth =
        (Container.object ms).reports cc pretty depth := reports_toValue depth (.object ms)
    rw [hreports]
    exact small_of_items hk (.object ms) hd (List.forall_mem_map.mpr ih)
  | array vs ih =>
    intro depth hd head hhead
    cases hhead
    have hreports : (Value.array vs).reports cc pretty depth =
        (Container.array vs).reports cc pretty depth := reports_toValue depth (.array vs)
    rw [hreports]
    exact small_of_items hk (.array vs) hd (List.forall_mem_map.mpr ih)

theorem allText_length (hcc : cc.AtMost k) (hk : 5 ≤ k) (t : Container) :
    (t.allText cc pretty).length ≤ rate k pretty t.depth * t.weight := by
  have hsmall : (t.openText pretty).length + (Drain.salvage (t.reports cc pretty 0)).length +
      around pretty t.depth ≤ rate k pretty t.depth * t.weight :=
    small_of_items hk t (Nat.le_of_eq (Nat.zero_add _)) fun item _ => value_small hcc hk item.value
  rw [Container.allText, List.length_append]
  omega

end

/-- **How much is written.** Of a tree that a parser has completed with, no sequence of calls writes
more bytes than the parser has read, times a factor that depends on number text only and, when
printing prettily, on the depth of the tree. -/
theorem written_length (cc : CharConv) (k : Nat) (hk : 5 ≤ k) (hcc : cc.AtMost k)
    (root : Container) (maxLevels : Option Nat) (chunks : List Str) (res : ParseResult) (q : Parser)
    (h : parseChunks cc (Parser.init root maxLevels) chunks = .returned res q)
    (hec : res.ec = .completed) (pretty : Bool) (caps : List Nat) :
    ((serializeEach cc (Serializer.init q.root pretty) caps).1.flatMap Call.written).length ≤
      (if pretty then k + 2 * q.root.depth + 10 else k + 4) * res.ptr := by
  rw [parseChunks_eq_parse] at h
  have hweight : q.root.weight ≤ res.ptr :=
    ((light_scan cc root maxLevels chunks.flatten).2 _ _ _ (stopped_of_completed h hec)).2 rfl
  obtain ⟨htext, -⟩ : (serializeEach cc (Serializer.init q.root pretty) caps).1.flatMap
      Call.written ++ _ = _ ∧ _ := accounts_each rfl
  calc ((serializeEach cc (Serializer.init q.root pretty) caps).1.flatMap Call.written).length
      ≤ (q.root.allText cc pretty).length := by
        rw [← (init_accounts cc q.root pretty).1, ← htext, List.length_append]
        exact Nat.le_add_right _ _
    _ ≤ rate k pretty q.root.depth * q.root.weight := allText_length hcc hk q.root
    _ ≤ rate k pretty q.root.depth * res.ptr := Nat.mul_le_mul_left _ hweight

/-- `[null]`, read in two pieces and printed prettily into two buffers. -/
theorem written_length_null :
    ∃ q, parseChunks .binary (Parser.init .empty none) [[0x5b], [0x6e, 0x75, 0x6c, 0x6c, 0x5d]] =
        .returned ⟨6, .completed, 1, 6⟩ q ∧
      ((serializeEach .binary (Serializer.init q.root true) [4, 9]).1.flatMap
        Call.written).length ≤ (65 + 2 * q.root.depth + 10) * 6 := by
  have hrun : ∃ q, parseChunks .binary (Parser.init .empty none)
      [[0x5b], [0x6e, 0x75, 0x6c, 0x6c, 0x5d]] = .returned ⟨6, .completed, 1, 6⟩ q := ⟨_, rfl⟩
  obtain ⟨q, hq⟩ := hrun
  exact ⟨q, hq, written_length .binary 65 (by decide) binary_atMost .empty none _ _ q hq rfl true
    [4, 9]⟩

end Jopp
