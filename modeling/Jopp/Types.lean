import Jopp.Numbers
import Jopp.Lib.SortedMap

/-!
# Jopp.Types

Values and containers (`lib/types.hpp`).

* An `object` is the content of its `std::map`, an `array` that of its `std::vector`. That the
  members of every object are in key order is `Value.Ordered`.
-/

namespace Jopp

/-! ## Values -/

inductive Value where
  | null
  | boolean (b : Bool)
  | object (members : List (Str × Value))
  | array (items : List Value)
  | number (x : Number)
  | string (s : Str)

inductive Container where
  | object (members : List (Str × Value))
  | array (items : List Value)

def Container.empty : Container := .object []

def toValue : Container → Value
  | .object members => .object members
  | .array items => .array items

def makeValue (cc : CharConv) (literal : Str) : Option Value :=
  if literal = falseLiteral then some (.boolean false)
  else if literal = trueLiteral then some (.boolean true)
  else if literal = nullLiteral then some .null
  else
    match toNumber cc literal with
    | some val => some (.number val)
    | none => none

/-! ## Kinds of containers -/

inductive Kind where
  | array
  | object
deriving DecidableEq

def Kind.opener : Kind → Byte
  | .array => Delimiters.beginArray
  | .object => Delimiters.beginObject

def Kind.closer : Kind → Byte
  | .array => Delimiters.endArray
  | .object => Delimiters.endObject

def Kind.empty : Kind → Container
  | .array => .array []
  | .object => .object []

/-- The value with the given entries; those of an array come without keys. -/
def Kind.wrap : Kind → List (Str × Value) → Value
  | .array, entries => .array (entries.map Prod.snd)
  | .object, entries => .object entries

def Container.kind : Container → Kind
  | .object _ => .object
  | .array _ => .array

theorem makeValue_cases {cc : CharConv} {w : Str} {val : Value} (h : makeValue cc w = some val) :
    (w = falseLiteral ∧ val = .boolean false) ∨ (w = trueLiteral ∧ val = .boolean true) ∨
      (w = nullLiteral ∧ val = .null) ∨ ∃ x, toNumber cc w = some x ∧ val = .number x := by
  unfold makeValue at h
  split at h
  · rename_i hw
    cases h
    exact .inl ⟨hw, rfl⟩
  split at h
  · rename_i hw
    cases h
    exact .inr (.inl ⟨hw, rfl⟩)
  split at h
  · rename_i hw
    cases h
    exact .inr (.inr (.inl ⟨hw, rfl⟩))
  split at h
  · rename_i x hx
    cases h
    exact .inr (.inr (.inr ⟨x, hx, rfl⟩))
  · cases h

/-- What a serializer range hands out: the key is empty for the elements of an array. -/
structure ItemPointer where
  key : Str
  value : Value

def itemPointers : Container → List ItemPointer
  | .object members => members.map fun kv => ⟨kv.1, kv.2⟩
  | .array items => items.map fun v => ⟨[], v⟩

/-! ## Induction on values -/

@[elab_as_elim]
theorem Value.induct {P : Value → Prop} (null : P .null) (boolean : ∀ b, P (.boolean b))
    (object : ∀ ms, (∀ kv ∈ ms, P kv.2) → P (.object ms))
    (array : ∀ vs, (∀ v ∈ vs, P v) → P (.array vs)) (number : ∀ x, P (.number x))
    (string : ∀ s, P (.string s)) (v : Value) : P v := by
  refine @Value.rec P (fun ms => ∀ kv ∈ ms, P kv.2) (fun vs => ∀ v ∈ vs, P v) (fun kv => P kv.2)
    null boolean object array number string ?_ ?_ ?_ ?_ (fun k v hv => hv) v
  · simp
  · intro kv ms hkv hms x hx
    rcases List.mem_cons.mp hx with rfl | hx
    · exact hkv
    · exact hms x hx
  · simp
  · intro v vs hv hvs x hx
    rcases List.mem_cons.mp hx with rfl | hx
    · exact hv
    · exact hvs x hx

mutual

def Value.nodes : Value → List Value
  | .object ms => .object ms :: memberNodes ms
  | .array vs => .array vs :: itemNodes vs
  | v => [v]
termination_by structural v => v

def memberNodes : List (Str × Value) → List Value
  | [] => []
  | (_, v) :: ms => v.nodes ++ memberNodes ms
termination_by structural ms => ms

def itemNodes : List Value → List Value
  | [] => []
  | v :: vs => v.nodes ++ itemNodes vs
termination_by structural vs => vs

end

mutual

/-- How deep containers are nested; a scalar has depth 0. -/
def Value.depth : Value → Nat
  | .object ms => memberDepth ms + 1
  | .array vs => itemDepth vs + 1
  | _ => 0
termination_by structural v => v

def memberDepth : List (Str × Value) → Nat
  | [] => 0
  | (_, v) :: ms => max v.depth (memberDepth ms)
termination_by structural ms => ms

def itemDepth : List Value → Nat
  | [] => 0
  | v :: vs => max v.depth (itemDepth vs)
termination_by structural vs => vs

end

def Value.All (P : Value → Prop) (v : Value) : Prop := ∀ n ∈ v.nodes, P n

instance {P : Value → Prop} [DecidablePred P] (v : Value) : Decidable (v.All P) :=
  inferInstanceAs (Decidable (∀ n ∈ v.nodes, P n))

theorem mem_memberNodes {ms : List (Str × Value)} {n : Value} :
    n ∈ memberNodes ms ↔ ∃ kv ∈ ms, n ∈ kv.2.nodes := by
  induction ms with
  | nil => simp [memberNodes]
  | cons kv ms ih => simp [memberNodes, ih]

theorem mem_itemNodes {vs : List Value} {n : Value} :
    n ∈ itemNodes vs ↔ ∃ v ∈ vs, n ∈ v.nodes := by
  induction vs with
  | nil => simp [itemNodes]
  | cons v vs ih => simp [itemNodes, ih]

namespace Value

variable {P : Value → Prop}

theorem all_object {ms : List (Str × Value)} :
    (Value.object ms).All P ↔ P (.object ms) ∧ ∀ kv ∈ ms, kv.2.All P := by
  simp only [All, nodes, List.mem_cons, forall_eq_or_imp, mem_memberNodes]
  exact and_congr_right fun _ => ⟨fun h kv hkv n hn => h n ⟨kv, hkv, hn⟩,
    fun h n ⟨kv, hkv, hn⟩ => h kv hkv n hn⟩

theorem all_array {vs : List Value} :
    (Value.array vs).All P ↔ P (.array vs) ∧ ∀ v ∈ vs, v.All P := by
  simp only [All, nodes, List.mem_cons, forall_eq_or_imp, mem_itemNodes]
  exact and_congr_right fun _ => ⟨fun h v hv n hn => h n ⟨v, hv, hn⟩,
    fun h n ⟨v, hv, hn⟩ => h v hv n hn⟩

@[simp] theorem all_null : Value.null.All P ↔ P .null := by simp [All, nodes]

@[simp] theorem all_boolean {b : Bool} : (Value.boolean b).All P ↔ P (.boolean b) := by
  simp [All, nodes]

@[simp] theorem all_number {x : Number} : (Value.number x).All P ↔ P (.number x) := by
  simp [All, nodes]

@[simp] theorem all_string {s : Str} : (Value.string s).All P ↔ P (.string s) := by
  simp [All, nodes]

end Value

theorem memberDepth_le {ms : List (Str × Value)} {d : Nat} :
    memberDepth ms ≤ d ↔ ∀ kv ∈ ms, kv.2.depth ≤ d := by
  induction ms with
  | nil => simp [memberDepth]
  | cons kv ms ih => simp only [memberDepth, Nat.max_le, ih, List.forall_mem_cons]

theorem itemDepth_le {vs : List Value} {d : Nat} :
    itemDepth vs ≤ d ↔ ∀ v ∈ vs, v.depth ≤ d := by
  induction vs with
  | nil => simp [itemDepth]
  | cons v vs ih => simp only [itemDepth, Nat.max_le, ih, List.forall_mem_cons]

/-! ## What holds of every value the program builds, and what may hold -/

/-- The members of an object are in key order, as its map keeps them. -/
def Value.OrderedNode : Value → Prop
  | .object ms => SortedMap.Sorted ms
  | _ => True

instance : DecidablePred Value.OrderedNode
  | .object ms => inferInstanceAs (Decidable (SortedMap.Sorted ms))
  | .null | .boolean _ | .array _ | .number _ | .string _ => .isTrue trivial

def Value.Ordered (v : Value) : Prop := v.All OrderedNode

instance (v : Value) : Decidable v.Ordered := inferInstanceAs (Decidable (v.All _))

def Container.Ordered (c : Container) : Prop := (toValue c).Ordered

instance (c : Container) : Decidable c.Ordered := inferInstanceAs (Decidable (Value.Ordered _))

def Container.depth (c : Container) : Nat := (toValue c).depth

/-- The strings a value has at its own level: itself if it is a string, else its keys. -/
def Value.ownStrings : Value → List Str
  | .object ms => ms.map Prod.fst
  | .string s => [s]
  | _ => []

def Value.AllStrings (Q : Str → Prop) (v : Value) : Prop :=
  v.All fun n => ∀ s ∈ n.ownStrings, Q s

instance {Q : Str → Prop} [DecidablePred Q] (v : Value) : Decidable (v.AllStrings Q) :=
  inferInstanceAs (Decidable (v.All _))

theorem allStrings_object {Q : Str → Prop} {ms : List (Str × Value)} :
    (Value.object ms).AllStrings Q ↔ ∀ kv ∈ ms, Q kv.1 ∧ kv.2.AllStrings Q := by
  simp only [Value.AllStrings, Value.all_object, Value.ownStrings, List.forall_mem_map]
  exact ⟨fun h kv hkv => ⟨h.1 kv hkv, h.2 kv hkv⟩,
    fun h => ⟨fun kv hkv => (h kv hkv).1, fun kv hkv => (h kv hkv).2⟩⟩

theorem allStrings_array {Q : Str → Prop} {vs : List Value} :
    (Value.array vs).AllStrings Q ↔ ∀ v ∈ vs, v.AllStrings Q := by
  simp [Value.AllStrings, Value.all_array, Value.ownStrings]

def Value.isNaN : Value → Bool
  | .number x => x.isNaN
  | _ => false

/-- No number in the tree is a NaN. -/
def Value.NumbersOnly (v : Value) : Prop := v.All fun n => n.isNaN = false

instance (v : Value) : Decidable v.NumbersOnly := inferInstanceAs (Decidable (v.All _))

end Jopp
