import Jopp.Types

/-!
# Jopp.Equality

`value::operator==` (`lib/types.hpp`), over values as they lie in memory.

* A `value` holds one alternative of its variant (`Stored`); the containers are behind pointers into
  a `Heap`. `v.StoredAs h s` says that `s` stands for the tree `v`.
* The operator is the defaulted one, so a `unique_ptr` is compared as a pointer.
* `Value.Same` is structural equality of trees. `equals_exact`: when the operator decides it.
-/

namespace Jopp

/-! ## Values in memory -/

abbrev Addr := Nat

/-- An alternative of the variant. The pointer to a container may be null. -/
inductive Stored where
  | null
  | boolean (b : Bool)
  | object (ptr : Option Addr)
  | array (ptr : Option Addr)
  | number (x : Number)
  | string (s : Str)
deriving DecidableEq

inductive Cell where
  | object (members : List (Str × Stored)) (h : SortedMap.Sorted members)
  | array (items : List Stored)

abbrev Heap := Addr → Option Cell

def Stored.ptr : Stored → Option Addr
  | .object ptr => ptr
  | .array ptr => ptr
  | _ => none

mutual

def Value.StoredAs (h : Heap) : Value → Stored → Prop
  | .null, s => s = .null
  | .boolean b, s => s = .boolean b
  | .object ms, s => ∃ p members sorted, s = .object (some p) ∧
      h p = some (.object members sorted) ∧ MembersStoredAs h ms members
  | .array vs, s => ∃ p items, s = .array (some p) ∧ h p = some (.array items) ∧
      ItemsStoredAs h vs items
  | .number x, s => s = .number x
  | .string str, s => s = .string str
termination_by structural v => v

def MembersStoredAs (h : Heap) : List (Str × Value) → List (Str × Stored) → Prop
  | [], members => members = []
  | (k, v) :: ms, members => ∃ s rest, members = (k, s) :: rest ∧ v.StoredAs h s ∧
      MembersStoredAs h ms rest
termination_by structural ms => ms

def ItemsStoredAs (h : Heap) : List Value → List Stored → Prop
  | [], items => items = []
  | v :: vs, items => ∃ s rest, items = s :: rest ∧ v.StoredAs h s ∧ ItemsStoredAs h vs rest
termination_by structural vs => vs

end

/-! ## The operator -/

def Number.isZero (x : Number) : Bool := x.bits.extractLsb' 0 63 == 0#63

/-- `==` of doubles: NaN is not equal to anything, and the two zeros are equal. -/
def Number.equals (x y : Number) : Bool :=
  !x.isNaN && !y.isNaN && (x == y || (x.isZero && y.isZero))

/-- Two variants are equal if they hold the same alternative with equal contents. -/
def Stored.equals : Stored → Stored → Bool
  | .null, .null => true
  | .boolean x, .boolean y => x == y
  | .object p, .object q => p == q
  | .array p, .array q => p == q
  | .number x, .number y => x.equals y
  | .string s, .string t => s == t
  | _, _ => false

/-! ## Structural equality -/

mutual

/-- The same tree, numbers compared as doubles. -/
def Value.Same : Value → Value → Prop
  | .null, w => w = .null
  | .boolean b, w => w = .boolean b
  | .object ms, w => ∃ ms', w = .object ms' ∧
      (∀ k, k ∈ ms.map Prod.fst ↔ k ∈ ms'.map Prod.fst) ∧ MembersSame ms ms'
  | .array vs, w => ∃ ws, w = .array ws ∧ ItemsSame vs ws
  | .number x, w => ∃ y, w = .number y ∧ x.equals y = true
  | .string s, w => w = .string s
termination_by structural v => v

def MembersSame : List (Str × Value) → List (Str × Value) → Prop
  | [], _ => True
  | (k, v) :: ms, ms' => (∀ w, (k, w) ∈ ms' → v.Same w) ∧ MembersSame ms ms'
termination_by structural ms => ms

def ItemsSame : List Value → List Value → Prop
  | [], ws => ws = []
  | v :: vs, ws => ∃ w ws', ws = w :: ws' ∧ v.Same w ∧ ItemsSame vs ws'
termination_by structural vs => vs

end

theorem membersSame_iff {ms ms' : List (Str × Value)} :
    MembersSame ms ms' ↔ ∀ kv ∈ ms, ∀ w, (kv.1, w) ∈ ms' → kv.2.Same w := by
  induction ms with
  | nil => simp [MembersSame]
  | cons kv ms ih => simp only [MembersSame, ih, List.forall_mem_cons]

theorem itemsSame_iff {vs ws : List Value} :
    ItemsSame vs ws ↔ List.Forall₂ Value.Same vs ws := by
  induction vs generalizing ws with
  | nil => simp [ItemsSame]
  | cons v vs ih =>
    simp only [ItemsSame, ih, List.forall₂_cons_left_iff]
    exact ⟨fun ⟨w, ws', hws, hv, hvs⟩ => ⟨w, ws', hv, hvs, hws⟩,
      fun ⟨w, ws', hv, hvs, hws⟩ => ⟨w, ws', hws, hv, hvs⟩⟩

theorem Number.equals_self {x : Number} : x.equals x = !x.isNaN := by
  simp [Number.equals]

/-- A tree is the same as itself unless there is a NaN inside. -/
theorem same_self (v : Value) (hv : v.Ordered) : v.Same v ↔ v.NumbersOnly := by
  induction v using Value.induct with
  | null => simp [Value.Same, Value.NumbersOnly, Value.isNaN]
  | boolean b => simp [Value.Same, Value.NumbersOnly, Value.isNaN]
  | string s => simp [Value.Same, Value.NumbersOnly, Value.isNaN]
  | number x => simp [Value.Same, Value.NumbersOnly, Value.isNaN, Number.equals_self]
  | array vs ih =>
    have hvs := (Value.all_array.mp hv).2
    simp only [Value.Same, Value.array.injEq, exists_eq_left', itemsSame_iff, List.forall₂_same,
      Value.NumbersOnly, Value.all_array, Value.isNaN, true_and]
    exact forall₂_congr fun v hmem => ih v hmem (hvs v hmem)
  | object ms ih =>
    obtain ⟨hsorted, hms⟩ := Value.all_object.mp hv
    simp only [Value.Same, Value.object.injEq, exists_eq_left', membersSame_iff, implies_true,
      true_and, Value.NumbersOnly, Value.all_object, Value.isNaN]
    refine forall₂_congr fun kv hmem => Iff.trans ?_ (ih kv hmem (hms kv hmem))
    refine ⟨fun h => h kv.2 hmem, fun h w hw => ?_⟩
    have hw : w = kv.2 := SortedMap.Sorted.value_unique hsorted hw hmem
    rwa [hw]

/-! ## What is stored -/

variable {h : Heap} {s : Stored} {v w : Value}

theorem members_stored {ms : List (Str × Value)} {members : List (Str × Stored)}
    (hms : MembersStoredAs h ms members) :
    members.map Prod.fst = ms.map Prod.fst ∧ ∀ kv ∈ ms, ∃ s, kv.2.StoredAs h s := by
  induction ms generalizing members with
  | nil => rw [hms]; simp
  | cons kv ms ih =>
    obtain ⟨s, rest, rfl, hs, hrest⟩ := hms
    obtain ⟨hkeys, hall⟩ := ih hrest
    rw [List.map_cons, List.map_cons, hkeys]
    exact ⟨rfl, List.forall_mem_cons.mpr ⟨⟨s, hs⟩, hall⟩⟩

theorem items_stored {vs : List Value} {items : List Stored} (hvs : ItemsStoredAs h vs items) :
    ∀ v ∈ vs, ∃ s, v.StoredAs h s := by
  induction vs generalizing items with
  | nil => simp
  | cons v vs ih =>
    obtain ⟨s, rest, -, hs, hrest⟩ := hvs
    exact List.forall_mem_cons.mpr ⟨⟨s, hs⟩, ih hrest⟩

theorem stored_ordered (hv : v.StoredAs h s) : v.Ordered := by
  induction v using Value.induct generalizing s with
  | null | boolean | number | string => simp [Value.Ordered, Value.OrderedNode]
  | array vs ih =>
    obtain ⟨p, items, -, -, hitems⟩ := hv
    refine Value.all_array.mpr ⟨trivial, fun v hmem => ?_⟩
    obtain ⟨s, hs⟩ := items_stored hitems v hmem
    exact ih v hmem hs
  | object ms ih =>
    obtain ⟨p, members, sorted, -, -, hmembers⟩ := hv
    obtain ⟨hkeys, hall⟩ := members_stored hmembers
    have hsorted : (members.map Prod.fst).Pairwise (· < ·) := List.pairwise_map.mpr sorted
    rw [hkeys] at hsorted
    refine Value.all_object.mpr ⟨List.pairwise_map.mp hsorted, fun kv hmem => ?_⟩
    obtain ⟨s, hs⟩ := hall kv hmem
    exact ih kv hmem hs

theorem members_unique {ms ms' : List (Str × Value)} {members : List (Str × Stored)}
    (ih : ∀ kv ∈ ms, ∀ {s w}, kv.2.StoredAs h s → w.StoredAs h s → kv.2 = w)
    (hms : MembersStoredAs h ms members) (hms' : MembersStoredAs h ms' members) : ms = ms' := by
  induction ms generalizing ms' members with
  | nil =>
    cases ms' with
    | nil => rfl
    | cons kv ms' =>
      obtain ⟨s, rest, hcons, -⟩ := hms'
      rw [show members = [] from hms] at hcons
      cases hcons
  | cons kv ms ihms =>
    obtain ⟨ihkv, ihrest⟩ := List.forall_mem_cons.mp ih
    obtain ⟨s, rest, rfl, hs, hrest⟩ := hms
    cases ms' with
    | nil => cases hms'
    | cons kv' ms' =>
      obtain ⟨s', rest', hcons, hs', hrest'⟩ := hms'
      obtain ⟨⟨hkey, rfl⟩, rfl⟩ : (kv.1 = kv'.1 ∧ s = s') ∧ rest = rest' := by simpa using hcons
      rw [ihms ihrest hrest hrest', Prod.ext hkey (ihkv hs hs')]

theorem items_unique {vs ws : List Value} {items : List Stored}
    (ih : ∀ v ∈ vs, ∀ {s w}, v.StoredAs h s → w.StoredAs h s → v = w)
    (hvs : ItemsStoredAs h vs items) (hws : ItemsStoredAs h ws items) : vs = ws := by
  induction vs generalizing ws items with
  | nil =>
    cases ws with
    | nil => rfl
    | cons w ws =>
      obtain ⟨s, rest, hcons, -⟩ := hws
      rw [show items = [] from hvs] at hcons
      cases hcons
  | cons v vs ihvs =>
    obtain ⟨ihv, ihrest⟩ := List.forall_mem_cons.mp ih
    obtain ⟨s, rest, rfl, hs, hrest⟩ := hvs
    cases ws with
    | nil => cases hws
    | cons w ws =>
      obtain ⟨s', rest', hcons, hs', hrest'⟩ := hws
      obtain ⟨rfl, rfl⟩ : s = s' ∧ rest = rest' := by simpa using hcons
      rw [ihv hs hs', ihvs ihrest hrest hrest']

theorem storedAs_unique (hv : v.StoredAs h s) (hw : w.StoredAs h s) : v = w := by
  induction v using Value.induct generalizing s w with
  | null | boolean | number | string =>
    rw [Value.StoredAs] at hv
    rw [hv] at hw
    cases w <;> simp_all [Value.StoredAs]
  | array vs ih =>
    obtain ⟨p, items, rfl, hp, hitems⟩ := hv
    cases w with
    | array ws =>
      obtain ⟨p', items', hptr, hp', hitems'⟩ := hw
      cases hptr
      cases hp.symm.trans hp'
      rw [items_unique ih hitems hitems']
    | object ms => obtain ⟨p', members, sorted, hptr, -⟩ := hw; cases hptr
    | null | boolean | number | string => cases hw
  | object ms ih =>
    obtain ⟨p, members, sorted, rfl, hp, hmembers⟩ := hv
    cases w with
    | object ms' =>
      obtain ⟨p', members', sorted', hptr, hp', hmembers'⟩ := hw
      cases hptr
      cases hp.symm.trans hp'
      rw [members_unique ih hmembers hmembers']
    | array ws => obtain ⟨p', items, hptr, -⟩ := hw; cases hptr
    | null | boolean | number | string => cases hw

/-! ## When the operator is structural equality -/

variable {a b : Stored}

theorem equals_scalar (hv : v.StoredAs h a) (hw : w.StoredAs h b) (ha : a.ptr = none) :
    a.equals b = true ↔ v.Same w := by
  cases v with
  | object ms => obtain ⟨p, members, sorted, rfl, -⟩ := hv; cases ha
  | array vs => obtain ⟨p, items, rfl, -⟩ := hv; cases ha
  | null | boolean | number | string =>
    rw [Value.StoredAs] at hv
    subst hv
    cases w with
    | object ms => obtain ⟨p, members, sorted, rfl, -⟩ := hw; simp [Stored.equals, Value.Same]
    | array vs => obtain ⟨p, items, rfl, -⟩ := hw; simp [Stored.equals, Value.Same]
    | null | boolean | number | string =>
      rw [Value.StoredAs] at hw
      subst hw
      simp [Stored.equals, Value.Same] <;> exact eq_comm

/-- A pointer leads to one container, of one kind. -/
theorem eq_of_ptr (hv : v.StoredAs h a) (hw : w.StoredAs h b) (ha : a.ptr ≠ none)
    (hab : a.ptr = b.ptr) : a = b := by
  cases v with
  | null | boolean | number | string => rw [Value.StoredAs] at hv; subst hv; exact absurd rfl ha
  | object ms =>
    obtain ⟨p, members, sorted, rfl, hp, -⟩ := hv
    cases w with
    | null | boolean | number | string => rw [Value.StoredAs] at hw; subst hw; cases hab
    | object ms' => obtain ⟨q, members', sorted', rfl, -⟩ := hw; cases hab; rfl
    | array vs => obtain ⟨q, items, rfl, hq, -⟩ := hw; cases hab; cases hp.symm.trans hq
  | array vs =>
    obtain ⟨p, items, rfl, hp, -⟩ := hv
    cases w with
    | null | boolean | number | string => rw [Value.StoredAs] at hw; subst hw; cases hab
    | object ms' => obtain ⟨q, members, sorted, rfl, hq, -⟩ := hw; cases hab; cases hp.symm.trans hq
    | array vs' => obtain ⟨q, items', rfl, -⟩ := hw; cases hab; rfl

/-- The operator takes a container for equal to itself, and to nothing else. -/
theorem equals_container (hv : v.StoredAs h a) (hw : w.StoredAs h b) (ha : a.ptr ≠ none) :
    a.equals b = true ↔ a.ptr = b.ptr := by
  constructor
  · intro he
    cases a with
    | object p => cases b <;> simp_all [Stored.equals, Stored.ptr]
    | array p => cases b <;> simp_all [Stored.equals, Stored.ptr]
    | null | boolean | number | string => exact absurd rfl ha
  · intro hab
    obtain rfl := eq_of_ptr hv hw ha hab
    cases a with
    | object p => simp [Stored.equals]
    | array p => simp [Stored.equals]
    | null | boolean | number | string => exact absurd rfl ha

theorem ptr_of_same (hv : v.StoredAs h a) (hw : w.StoredAs h b) (hvw : v.Same w)
    (ha : a.ptr ≠ none) : b.ptr ≠ none := by
  cases v with
  | null | boolean | number | string => rw [Value.StoredAs] at hv; subst hv; exact absurd rfl ha
  | object ms =>
    obtain ⟨ms', rfl, -⟩ := hvw
    obtain ⟨q, members, sorted, rfl, -⟩ := hw
    exact Option.some_ne_none q
  | array vs =>
    obtain ⟨ws, rfl, -⟩ := hvw
    obtain ⟨q, items, rfl, -⟩ := hw
    exact Option.some_ne_none q

/-- The operator decides structural equality except for two containers that stand for the same tree
in different places, and for one container, compared with itself, that has a NaN inside. -/
theorem equals_exact (hv : v.StoredAs h a) (hw : w.StoredAs h b) :
    (a.equals b = true ↔ v.Same w) ↔
      (a.ptr ≠ none → a.ptr = b.ptr → v.NumbersOnly) ∧
      (a.ptr ≠ none → b.ptr ≠ none → a.ptr ≠ b.ptr → ¬ v.Same w) := by
  by_cases ha : a.ptr = none
  · simp [ha, equals_scalar hv hw ha]
  rw [equals_container hv hw ha]
  by_cases hab : a.ptr = b.ptr
  · obtain rfl := eq_of_ptr hv hw ha hab
    obtain rfl := storedAs_unique hv hw
    have hself := same_self v (stored_ordered hv)
    simp [ha, hself]
  · have hdiffer : (a.ptr = b.ptr ↔ v.Same w) ↔ ¬ v.Same w := by simp [hab]
    rw [hdiffer]
    constructor
    · intro hne
      exact ⟨fun _ he => absurd he hab, fun _ _ _ => hne⟩
    · rintro ⟨-, hne⟩ hvw
      exact hne ha (ptr_of_same hv hw hvw ha) hab hvw

/-- It tells an empty array from one that holds a null. -/
theorem equals_exact_arrays :
    (Stored.array (some 0)).equals (.array (some 1)) = true ↔
      (Value.array []).Same (.array [.null]) := by
  let h : Heap := fun p => [Cell.array [], Cell.array [.null]][p]?
  have hv : (Value.array []).StoredAs h (.array (some 0)) := ⟨0, [], rfl, rfl, rfl⟩
  have hw : (Value.array [.null]).StoredAs h (.array (some 1)) :=
    ⟨1, [.null], rfl, rfl, .null, [], rfl, rfl, rfl⟩
  refine (equals_exact hv hw).mpr ⟨fun _ hab => absurd hab (by decide), fun _ _ _ hsame => ?_⟩
  obtain ⟨ws, hws, hnil⟩ := hsame
  cases hws
  cases hnil

/-- Two empty arrays are the same tree and not equal. -/
theorem equals_exact_empty :
    ¬ ∀ (h : Heap) (a b : Stored) (v w : Value), v.StoredAs h a → w.StoredAs h b →
      (a.equals b = true ↔ v.Same w) := by
  intro hall
  let h : Heap := fun p => [Cell.array [], Cell.array []][p]?
  have heq := hall h (.array (some 0)) (.array (some 1)) (.array []) (.array [])
    ⟨0, [], rfl, rfl, rfl⟩ ⟨1, [], rfl, rfl, rfl⟩
  exact absurd (heq.mpr ⟨[], rfl, rfl⟩) (by decide)

end Jopp
