import Jopp.Serializer.Salvage

/-!
# Jopp.Serializer.Kept

The items a caller loses that goes on after `illegalCharInString`.

* `Value.kept`: the tree without the items that are reported, and without what is inside them.
* `Value.startsWell`: no block that is written begins with an item that is reported and then has one
  that is not. The separator of the second would come directly behind the opening delimiter.
* `allText_kept`: where all blocks start well, what is written is the text of the tree that is kept.
-/

namespace Jopp

/-- The key cannot be escaped, or the value is a string that cannot. -/
def isReported (key : Str) : Value → Bool
  | .string s => !decide (Escapable key) || !decide (Escapable s)
  | _ => !decide (Escapable key)

def ItemPointer.isReported (item : ItemPointer) : Bool := Jopp.isReported item.key item.value

mutual

/-- The tree without the items that are reported. -/
def Value.kept : Value → Value
  | .object ms => .object (keptMembers ms)
  | .array vs => .array (keptElements vs)
  | v => v
termination_by structural v => v

def keptMembers : List (Str × Value) → List (Str × Value)
  | [] => []
  | (k, v) :: ms => if isReported k v then keptMembers ms else (k, v.kept) :: keptMembers ms
termination_by structural ms => ms

def keptElements : List Value → List Value
  | [] => []
  | v :: vs => if isReported [] v then keptElements vs else v.kept :: keptElements vs
termination_by structural vs => vs

end

def Container.kept : Container → Container
  | .object ms => .object (keptMembers ms)
  | .array vs => .array (keptElements vs)

def keptItems (range : List ItemPointer) : List ItemPointer :=
  (range.filter fun item => !item.isReported).map fun item => ⟨item.key, item.value.kept⟩

/-- If the first item is reported, all are. -/
def opensWell : List ItemPointer → Bool
  | [] => true
  | item :: range => !item.isReported || range.all ItemPointer.isReported

mutual

/-- No block that is written has a separator directly behind its opening delimiter. -/
def Value.startsWell : Value → Bool
  | .object ms => opensWell (itemPointers (.object ms)) && membersStartWell ms
  | .array vs => opensWell (itemPointers (.array vs)) && elementsStartWell vs
  | _ => true
termination_by structural v => v

def membersStartWell : List (Str × Value) → Bool
  | [] => true
  | (k, v) :: ms => (isReported k v || v.startsWell) && membersStartWell ms
termination_by structural ms => ms

def elementsStartWell : List Value → Bool
  | [] => true
  | v :: vs => (isReported [] v || v.startsWell) && elementsStartWell vs
termination_by structural vs => vs

end

def Container.startsWell (c : Container) : Bool := (toValue c).startsWell

variable {cc : CharConv} {pretty : Bool}

/-! ## What is kept -/

theorem isReported_iff (cc : CharConv) (pretty : Bool) {key : Str} {v : Value} :
    isReported key v = true ↔ ¬ Escapable key ∨ headText cc pretty v = none := by
  cases v with
  | string s => simp [isReported, headText, wrapString_eq_none]
  | _ => simp [isReported, headText]

theorem escapable_of_not_reported {key : Str} {v : Value} (h : isReported key v = false) :
    Escapable key ∧ ∀ s, v = .string s → Escapable s := by
  cases v with
  | string s => simpa [isReported] using h
  | _ => simpa [isReported] using h

theorem keptMembers_eq (ms : List (Str × Value)) :
    keptMembers ms =
      (ms.filter fun kv => !isReported kv.1 kv.2).map fun kv => (kv.1, kv.2.kept) := by
  induction ms with
  | nil => rfl
  | cons kv ms ih => cases h : isReported kv.1 kv.2 <;> simp [keptMembers, h, ih]

theorem keptElements_eq (vs : List Value) :
    keptElements vs = (vs.filter fun v => !isReported [] v).map Value.kept := by
  induction vs with
  | nil => rfl
  | cons v vs ih => cases h : isReported [] v <;> simp [keptElements, h, ih]

theorem toValue_kept (c : Container) : toValue c.kept = (toValue c).kept := by
  cases c <;> rfl

theorem itemPointers_kept (c : Container) : itemPointers c.kept = keptItems (itemPointers c) := by
  cases c with
  | object ms =>
    simp [Container.kept, itemPointers, keptMembers_eq, keptItems, List.filter_map,
      Function.comp_def, ItemPointer.isReported]
  | array vs =>
    simp [Container.kept, itemPointers, keptElements_eq, keptItems, List.filter_map,
      Function.comp_def, ItemPointer.isReported]

theorem kept_escapable (v : Value) :
    (∀ s, v = .string s → Escapable s) → v.kept.AllStrings Escapable := by
  induction v using Value.induct with
  | null | boolean | number => simp [Value.kept, Value.AllStrings, Value.ownStrings]
  | string s => simp [Value.kept, Value.AllStrings, Value.ownStrings]
  | object ms ih =>
    intro _
    rw [Value.kept, allStrings_object, keptMembers_eq, List.forall_mem_map]
    intro kv hkv
    obtain ⟨hmem, hkept⟩ := List.mem_filter.mp hkv
    obtain ⟨hkey, hval⟩ := escapable_of_not_reported (Bool.not_eq_true' _ ▸ hkept)
    exact ⟨hkey, ih kv hmem hval⟩
  | array vs ih =>
    intro _
    rw [Value.kept, allStrings_array, keptElements_eq, List.forall_mem_map]
    intro v hv
    obtain ⟨hmem, hkept⟩ := List.mem_filter.mp hv
    exact ih v hmem (escapable_of_not_reported (Bool.not_eq_true' _ ▸ hkept)).2

theorem container_kept_escapable (c : Container) : (toValue c.kept).AllStrings Escapable := by
  rw [toValue_kept]
  exact kept_escapable _ fun s hs => by cases c <;> cases hs

theorem kept_ordered (v : Value) : v.Ordered → v.kept.Ordered := by
  induction v using Value.induct with
  | null | boolean | number | string => exact id
  | object ms ih =>
    intro h
    obtain ⟨hsorted, hms⟩ := ordered_object.mp h
    rw [Value.kept, ordered_object, keptMembers_eq, List.forall_mem_map]
    refine ⟨List.pairwise_map.mpr (List.Pairwise.filter _ hsorted), fun kv hkv => ?_⟩
    obtain ⟨hmem, -⟩ := List.mem_filter.mp hkv
    exact ih kv hmem (hms kv hmem)
  | array vs ih =>
    intro h
    obtain ⟨-, hvs⟩ := Value.all_array.mp h
    rw [Value.kept, keptElements_eq]
    refine Value.all_array.mpr ⟨trivial, List.forall_mem_map.mpr fun v hv => ?_⟩
    obtain ⟨hmem, -⟩ := List.mem_filter.mp hv
    exact ih v hmem (hvs v hmem)

/-! ## Blocks -/

theorem membersStartWell_eq (ms : List (Str × Value)) :
    membersStartWell ms = (itemPointers (.object ms)).all fun item =>
      item.isReported || item.value.startsWell := by
  induction ms with
  | nil => rfl
  | cons kv ms ih =>
    rw [membersStartWell, ih]
    rfl

theorem elementsStartWell_eq (vs : List Value) :
    elementsStartWell vs = (itemPointers (.array vs)).all fun item =>
      item.isReported || item.value.startsWell := by
  induction vs with
  | nil => rfl
  | cons v vs ih =>
    rw [elementsStartWell, ih]
    rfl

theorem startsWell_iff (c : Container) :
    c.startsWell = true ↔ opensWell (itemPointers c) = true ∧
      ∀ item ∈ itemPointers c, item.isReported = false → item.value.startsWell = true := by
  have hsplit : c.startsWell = (opensWell (itemPointers c) &&
      (itemPointers c).all fun item => item.isReported || item.value.startsWell) := by
    cases c with
    | object ms => rw [← membersStartWell_eq]; rfl
    | array vs => rw [← elementsStartWell_eq]; rfl
  rw [hsplit, Bool.and_eq_true, List.all_eq_true]
  refine and_congr_right fun _ => forall₂_congr fun item _ => ?_
  cases item.isReported <;> simp

theorem keptItems_reported {item : ItemPointer} (h : item.isReported = true)
    (range : List ItemPointer) : keptItems (item :: range) = keptItems range := by
  simp [keptItems, h]

theorem keptItems_written {item : ItemPointer} (h : item.isReported = false)
    (range : List ItemPointer) :
    keptItems (item :: range) = ⟨item.key, item.value.kept⟩ :: keptItems range := by
  simp [keptItems, h]

theorem itemToken_isReported {depth : Nat} {first : Bool} {item : ItemPointer} :
    itemToken cc pretty depth first item.key item.value = none ↔ item.isReported = true := by
  rw [itemToken_eq_none, ItemPointer.isReported, isReported_iff cc pretty]

theorem salvage_reported {depth : Nat} {first : Bool} {item : ItemPointer}
    (h : item.isReported = true) (inner : Drain.Queue Byte) :
    Drain.salvage (itemReports cc pretty depth first item.key item.value inner) = [] := by
  rw [itemReports, itemToken_isReported.mpr h]
  rfl

theorem itemToken_kept (depth : Nat) (first : Bool) (key : Str) (v : Value) :
    itemToken cc pretty depth first key v.kept = itemToken cc pretty depth first key v := by
  cases v <;> rfl

theorem salvage_item {depth : Nat} {first : Bool} {key : Str} {v : Value}
    {inner inner' : Drain.Queue Byte} (h : Drain.salvage inner = Drain.salvage inner') :
    Drain.salvage (itemReports cc pretty depth first key v inner) =
      Drain.salvage (itemReports cc pretty depth first key v.kept inner') := by
  unfold itemReports
  rw [itemToken_kept]
  cases itemToken cc pretty depth first key v with
  | none => rfl
  | some tok => exact congrArg (tok ++ ·) h

def SameText (cc : CharConv) (pretty : Bool) (range : List ItemPointer) : Prop :=
  ∀ item ∈ range, item.isReported = false → ∀ d,
    Drain.salvage (item.value.reports cc pretty d) =
      Drain.salvage (item.value.kept.reports cc pretty d)

theorem salvage_block {range : List ItemPointer} (h : SameText cc pretty range) (depth : Nat) :
    Drain.salvage (blockReports cc pretty depth false range) =
      Drain.salvage (blockReports cc pretty depth false (keptItems range)) := by
  induction range with
  | nil => rfl
  | cons item range ih =>
    obtain ⟨hitem, hrange⟩ := List.forall_mem_cons.mp h
    rw [blockReports, Drain.salvage_append, ih hrange]
    cases hr : item.isReported with
    | true => rw [salvage_reported hr, keptItems_reported hr, List.nil_append]
    | false =>
      rw [keptItems_written hr, blockReports, Drain.salvage_append, salvage_item (hitem hr depth)]

/-- A block that starts well is written as if the items that are reported were not there. -/
theorem salvage_opensWell {range : List ItemPointer} (h : SameText cc pretty range)
    (hwell : opensWell range = true) (depth : Nat) :
    Drain.salvage (blockReports cc pretty depth true range) =
      Drain.salvage (blockReports cc pretty depth true (keptItems range)) := by
  cases range with
  | nil => rfl
  | cons item range =>
    obtain ⟨hitem, hrange⟩ := List.forall_mem_cons.mp h
    rw [blockReports, Drain.salvage_append, salvage_block hrange]
    cases hr : item.isReported with
    | true =>
      have hall : range.all ItemPointer.isReported = true := by
        simpa [opensWell, hr] using hwell
      have hnil : keptItems range = [] := by
        simpa [keptItems] using List.all_eq_true.mp hall
      rw [salvage_reported hr, keptItems_reported hr, hnil]
      rfl
    | false =>
      rw [keptItems_written hr, blockReports, Drain.salvage_append, salvage_item (hitem hr depth)]

/-! ## Trees -/

theorem salvage_container {c : Container} (hwell : c.startsWell = true)
    (h : ∀ item ∈ itemPointers c, item.value.startsWell = true → ∀ d,
      Drain.salvage (item.value.reports cc pretty d) =
        Drain.salvage (item.value.kept.reports cc pretty d)) (d : Nat) :
    Drain.salvage (c.reports cc pretty d) = Drain.salvage (c.kept.reports cc pretty d) := by
  obtain ⟨hopens, hitems⟩ := (startsWell_iff c).mp hwell
  have hsame : SameText cc pretty (itemPointers c) := fun item hmem hr =>
    h item hmem (hitems item hmem hr)
  have hterminator : c.kept.terminator = c.terminator := by cases c <;> rfl
  unfold Container.reports
  rw [Drain.salvage_append, Drain.salvage_append, salvage_opensWell hsame hopens,
    itemPointers_kept, hterminator]

theorem salvage_kept (v : Value) : v.startsWell = true → ∀ d,
    Drain.salvage (v.reports cc pretty d) = Drain.salvage (v.kept.reports cc pretty d) := by
  induction v using Value.induct with
  | null | boolean | number | string => exact fun _ _ => rfl
  | object ms ih =>
    intro hwell d
    have hrun := salvage_container (c := .object ms) hwell (List.forall_mem_map.mpr ih) d
    rwa [← reports_toValue, ← reports_toValue, toValue_kept] at hrun
  | array vs ih =>
    intro hwell d
    have hrun := salvage_container (c := .array vs) hwell (List.forall_mem_map.mpr ih) d
    rwa [← reports_toValue, ← reports_toValue, toValue_kept] at hrun

/-- **What is written of a tree whose blocks start well** is the text of what is kept of it. -/
theorem allText_kept {t : Container} (h : t.startsWell = true) :
    t.allText cc pretty = t.kept.text cc pretty := by
  have hopen : t.kept.openText pretty = t.openText pretty := by cases t <;> rfl
  have hreports : Drain.salvage (t.reports cc pretty 0) =
      Drain.salvage (t.kept.reports cc pretty 0) :=
    salvage_container h (fun item _ => salvage_kept item.value) 0
  rw [← (faults_eq_zero t.kept).2 (container_kept_escapable t), Container.allText, hreports,
    ← hopen]
  rfl

end Jopp
