import Jopp.Parser.Pass
import Jopp.Layout

/-!
# Jopp.Parser.Load

What storing the parts of a value, one after the other, makes of it. `Value.load` takes a value as
written through the `store_value` calls the parser makes for it; the result is `none` where one of
them ends the run. `after_value_array` does not look at the error of its `store_value`, so an array
under a key that is taken is dropped instead (`Container.accept`).

* `load_laysOut`: the layouts of a tree load as that tree.
* `load_eq_none`: loading fails exactly at a member that repeats a key and is not an array.
* `exists_laysOut`: a value as written without repeated keys lays out some tree.
-/

namespace Jopp

/-- The container after a store, unless the store ends the run. -/
def Container.accept (c : Container) (key : Str) (val : Value) : Option Container :=
  if refuses ⟨key, c⟩ val = true ∧ val.isArray = false then none
  else some (storeValue ⟨key, c⟩ val).1.value

mutual

def Value.load : Value → Option Value
  | .object ms => (loadMembers (.object []) ms).map toValue
  | .array vs => (loadElements (.array []) vs).map toValue
  | v => some v
termination_by structural v => v

def loadMembers (c : Container) : List (Str × Value) → Option Container
  | [] => some c
  | (k, v) :: ms =>
    match v.load with
    | none => none
    | some v' =>
      match c.accept k v' with
      | none => none
      | some c' => loadMembers c' ms
termination_by structural ms => ms

def loadElements (c : Container) : List Value → Option Container
  | [] => some c
  | v :: vs =>
    match v.load with
    | none => none
    | some v' =>
      match c.accept [] v' with
      | none => none
      | some c' => loadElements c' vs
termination_by structural vs => vs

end

/-! ## One store -/

theorem accept_array (xs : List Value) (key : Str) (val : Value) :
    (Container.array xs).accept key val = some (.array (xs ++ [val])) := rfl

theorem accept_fresh {ms : List (Str × Value)} {key : Str} {val : Value}
    (h : (SortedMap.insert key val ms).2 = true) :
    (Container.object ms).accept key val = some (.object (SortedMap.insert key val ms).1) := by
  simp [Container.accept, refuses, storeValue, h]

theorem accept_taken {ms : List (Str × Value)} {key : Str} {val : Value}
    (h : (SortedMap.insert key val ms).2 = false) :
    (Container.object ms).accept key val =
      if val.isArray = true then some (.object ms) else none := by
  have hmap := SortedMap.insert_refused h
  cases hval : val.isArray <;> simp [Container.accept, refuses, storeValue, h, hval, hmap]

theorem accept_cases {ms : List (Str × Value)} (hms : SortedMap.Sorted ms) (key : Str)
    (val : Value) :
    (key ∈ ms.map Prod.fst ∧ (Container.object ms).accept key val =
        if val.isArray = true then some (.object ms) else none) ∨
    (key ∉ ms.map Prod.fst ∧ ∃ ms', (Container.object ms).accept key val = some (.object ms') ∧
      SortedMap.Sorted ms' ∧ ms'.Perm ((key, val) :: ms)) := by
  cases h : (SortedMap.insert key val ms).2 with
  | false => exact .inl ⟨(SortedMap.insert_snd_eq_false hms).mp h, accept_taken h⟩
  | true =>
    refine .inr ⟨fun hk => ?_, _, accept_fresh h, SortedMap.insert_sorted hms,
      SortedMap.insert_perm h⟩
    rw [(SortedMap.insert_snd_eq_false hms).mpr hk] at h
    cases h

/-! ## Elements of an array -/

theorem loadElements_eq {vs : List Value} : ∀ (xs : List Value) (vs' : List Value),
    List.Forall₂ (fun v v' => v.load = some v') vs vs' →
      loadElements (.array xs) vs = some (.array (xs ++ vs')) := by
  induction vs with
  | nil =>
    intro xs vs' h
    cases h
    simp [loadElements]
  | cons v vs ih =>
    intro xs vs' h
    cases h with
    | cons hv hrest =>
      simp only [loadElements, hv, accept_array, ih _ _ hrest]
      simp

theorem loadElements_eq_none {vs : List Value} : ∀ xs : List Value,
    loadElements (.array xs) vs = none ↔ ∃ v ∈ vs, v.load = none := by
  induction vs with
  | nil => intro xs; simp [loadElements]
  | cons v vs ih =>
    intro xs
    cases hv : v.load with
    | none => simp [loadElements, hv]
    | some v' => simp [loadElements, hv, accept_array, ih]

theorem loadMembers_array {entries : List (Str × Value)} : ∀ xs : List Value,
    loadMembers (.array xs) entries = loadElements (.array xs) (entries.map Prod.snd) := by
  induction entries with
  | nil => intro xs; rfl
  | cons e entries ih =>
    intro xs
    simp only [loadMembers, loadElements, List.map_cons, accept_array, ih]

theorem load_wrap (k : Kind) (entries : List (Str × Value)) :
    (k.wrap entries).load = (loadMembers k.empty entries).map toValue := by
  cases k with
  | array => simp only [Kind.wrap, Value.load, Kind.empty, loadMembers_array]
  | object => rfl

/-! ## Layouts -/

theorem elementsLayOut_load {vs : List Value}
    (ih : ∀ v ∈ vs, ∀ t, v.LaysOut t → t.Ordered → v.load = some t) :
    ∀ vs', ElementsLayOut vs vs' → (∀ v ∈ vs', v.Ordered) →
      List.Forall₂ (fun v v' => v.load = some v') vs vs' := by
  induction vs with
  | nil =>
    rintro _ rfl _
    exact .nil
  | cons v vs ihvs =>
    rintro _ ⟨v', rest, rfl, hv, hrest⟩ hord
    refine .cons (ih v (List.mem_cons_self ..) v' hv (hord v' (List.mem_cons_self ..))) ?_
    exact ihvs (fun x hx => ih x (List.mem_cons_of_mem _ hx)) rest hrest
      fun x hx => hord x (List.mem_cons_of_mem _ hx)

/-- Members with distinct keys, in any order, end up in the map they are the entries of. -/
theorem membersLayOut_load {ms : List (Str × Value)}
    (ih : ∀ kv ∈ ms, ∀ t, kv.2.LaysOut t → t.Ordered → kv.2.load = some t) :
    ∀ ms' acc, MembersLayOut ms ms' → (∀ kv ∈ ms', kv.2.Ordered) → SortedMap.Sorted acc →
      ((acc ++ ms').map Prod.fst).Nodup →
      ∃ acc', loadMembers (.object acc) ms = some (.object acc') ∧ SortedMap.Sorted acc' ∧
        acc'.Perm (acc ++ ms') := by
  induction ms with
  | nil =>
    rintro _ acc rfl _ hacc _
    exact ⟨acc, rfl, hacc, by simp⟩
  | cons kv ms ihms =>
    obtain ⟨k, v⟩ := kv
    rintro _ acc ⟨v', rest, rfl, hv, hrest⟩ hord hacc hnodup
    have hload := ih (k, v) (List.mem_cons_self ..) v' hv (hord (k, v') (List.mem_cons_self ..))
    have hfree : k ∉ acc.map Prod.fst := by
      intro hk
      rw [List.map_append, List.nodup_append] at hnodup
      exact hnodup.2.2 k hk k (by simp) rfl
    rcases accept_cases hacc k v' with ⟨hk, -⟩ | ⟨-, acc₁, hacc₁, hsorted, hperm⟩
    · exact absurd hk hfree
    · have hmove : (acc₁ ++ rest).Perm (acc ++ (k, v') :: rest) :=
        (hperm.append_right rest).trans List.perm_middle.symm
      obtain ⟨acc', hacc', hsorted', hperm'⟩ :=
        ihms (fun x hx => ih x (List.mem_cons_of_mem _ hx)) rest acc₁ hrest
          (fun x hx => hord x (List.mem_cons_of_mem _ hx)) hsorted
          ((hmove.map Prod.fst).nodup_iff.mpr hnodup)
      refine ⟨acc', ?_, hsorted', hperm'.trans hmove⟩
      simp only [loadMembers, hload, hacc₁, hacc']

theorem ordered_object {ms : List (Str × Value)} :
    (Value.object ms).Ordered ↔ SortedMap.Sorted ms ∧ ∀ kv ∈ ms, kv.2.Ordered := Value.all_object

theorem ordered_array {vs : List Value} : (Value.array vs).Ordered ↔ ∀ v ∈ vs, v.Ordered := by
  simp [Value.Ordered, Value.all_array, Value.OrderedNode]

theorem load_laysOut (v : Value) : ∀ t, v.LaysOut t → t.Ordered → v.load = some t := by
  induction v using Value.induct with
  | null | boolean | number | string =>
    intro t h _
    exact congrArg some h
  | object ms ih =>
    rintro _ ⟨ms', ms'', hms, hperm, rfl⟩ hord
    obtain ⟨hsorted, hvals⟩ := ordered_object.mp hord
    obtain ⟨acc, hacc, hsorted', hperm'⟩ := membersLayOut_load ih ms' [] hms
      (fun kv hkv => hvals kv (hperm.mem_iff.mp hkv)) SortedMap.sorted_nil
      (((hperm.map Prod.fst).nodup_iff).mpr hsorted.nodup)
    have heq : acc = ms'' := SortedMap.eq_of_perm hsorted' hsorted (hperm'.trans hperm)
    rw [Value.load, hacc, heq]
    rfl
  | array vs ih =>
    rintro _ ⟨vs', hvs, rfl⟩ hord
    rw [Value.load, loadElements_eq [] vs' (elementsLayOut_load ih vs' hvs (ordered_array.mp hord))]
    rfl

/-! ## Without repeated keys -/

theorem exists_elementsLayOut {vs : List Value}
    (h : ∀ v ∈ vs, ∃ t, v.LaysOut t ∧ t.Ordered) :
    ∃ vs', ElementsLayOut vs vs' ∧ ∀ v ∈ vs', v.Ordered := by
  induction vs with
  | nil => exact ⟨[], rfl, by simp⟩
  | cons v vs ih =>
    obtain ⟨t, ht, hord⟩ := h v (List.mem_cons_self ..)
    obtain ⟨vs', hvs, hall⟩ := ih fun x hx => h x (List.mem_cons_of_mem _ hx)
    exact ⟨t :: vs', ⟨t, vs', rfl, ht, hvs⟩, List.forall_mem_cons.mpr ⟨hord, hall⟩⟩

theorem exists_membersLayOut {ms : List (Str × Value)}
    (h : ∀ kv ∈ ms, ∃ t, kv.2.LaysOut t ∧ t.Ordered) :
    ∃ ms', MembersLayOut ms ms' ∧ (∀ kv ∈ ms', kv.2.Ordered) ∧
      ms'.map Prod.fst = ms.map Prod.fst := by
  induction ms with
  | nil => exact ⟨[], rfl, by simp, rfl⟩
  | cons kv ms ih =>
    obtain ⟨k, v⟩ := kv
    obtain ⟨t, ht, hord⟩ := h (k, v) (List.mem_cons_self ..)
    obtain ⟨ms', hms, hall, hkeys⟩ := ih fun x hx => h x (List.mem_cons_of_mem _ hx)
    exact ⟨(k, t) :: ms', ⟨t, ms', rfl, ht, hms⟩, List.forall_mem_cons.mpr ⟨hord, hall⟩,
      by simp [hkeys]⟩

/-- A value as written in which no key is repeated lays out some tree. -/
theorem exists_laysOut (v : Value) :
    v.All (fun n => ¬ n.RepeatsKey) → ∃ t, v.LaysOut t ∧ t.Ordered := by
  induction v using Value.induct with
  | null => exact fun _ => ⟨.null, rfl, Value.all_null.mpr trivial⟩
  | boolean b => exact fun _ => ⟨.boolean b, rfl, Value.all_boolean.mpr trivial⟩
  | number x => exact fun _ => ⟨.number x, rfl, Value.all_number.mpr trivial⟩
  | string s => exact fun _ => ⟨.string s, rfl, Value.all_string.mpr trivial⟩
  | object ms ih =>
    intro h
    obtain ⟨hkeys, hvals⟩ := Value.all_object.mp h
    obtain ⟨ms', hms, hord, hfst⟩ := exists_membersLayOut fun kv hkv => ih kv hkv (hvals kv hkv)
    have hnodup : (([] ++ ms').map Prod.fst).Nodup := by
      rw [List.nil_append, hfst]
      exact not_not.mp hkeys
    obtain ⟨acc, -, hsorted, hperm⟩ := membersLayOut_load (fun kv _ => load_laysOut kv.2) ms' []
      hms hord SortedMap.sorted_nil hnodup
    exact ⟨.object acc, ⟨ms', acc, hms, hperm.symm, rfl⟩,
      ordered_object.mpr ⟨hsorted, fun kv hkv => hord kv (hperm.mem_iff.mp hkv)⟩⟩
  | array vs ih =>
    intro h
    obtain ⟨vs', hvs, hord⟩ := exists_elementsLayOut fun v hv => ih v hv
      ((Value.all_array.mp h).2 v hv)
    exact ⟨.array vs', ⟨vs', hvs, rfl⟩, ordered_array.mpr hord⟩

/-! ## Where loading fails -/

theorem accept_kind {c c' : Container} {key : Str} {val : Value}
    (h : c.accept key val = some c') : c'.kind = c.kind := by
  unfold Container.accept at h
  split at h
  · cases h
  · cases h
    rcases storeValue_kind ⟨key, c⟩ val with ⟨_, _, hc, hv, -⟩ | ⟨_, _, hc, hv, -⟩ <;>
    · rw [hv]
      cases hc
      rfl

theorem loadMembers_kind {ms : List (Str × Value)} :
    ∀ {c c' : Container}, loadMembers c ms = some c' → c'.kind = c.kind := by
  induction ms with
  | nil =>
    intro c c' h
    cases h
    rfl
  | cons kv ms ih =>
    intro c c' h
    simp only [loadMembers] at h
    split at h
    · cases h
    · split at h
      · cases h
      · rename_i hacc
        rw [ih h, accept_kind hacc]

theorem load_isArray {v v' : Value} (h : v.load = some v') : v'.isArray = v.isArray := by
  have hwrap : ∀ (k : Kind) (entries : List (Str × Value)), (k.wrap entries).load = some v' →
      v'.isArray = decide (k = .array) := by
    intro k entries h
    rw [load_wrap] at h
    obtain ⟨c, hc, rfl⟩ := Option.map_eq_some_iff.mp h
    have hkind := loadMembers_kind hc
    cases k <;> cases c <;> first | rfl | cases hkind
  cases v with
  | null | boolean | number | string => cases h; rfl
  | object ms => exact hwrap .object ms h
  | array vs =>
    refine hwrap .array (vs.map fun v => ([], v)) ?_
    simpa [Kind.wrap, Function.comp_def] using h

/-- `seen` are the keys of the members that came before. -/
theorem loadMembers_eq_none {ms : List (Str × Value)} :
    ∀ (seen : List Str) (acc : List (Str × Value)), SortedMap.Sorted acc →
      (∀ k, k ∈ acc.map Prod.fst ↔ k ∈ seen) →
      (loadMembers (.object acc) ms = none ↔
        (∃ kv ∈ ms, kv.2.load = none) ∨
        ∃ before k v after, ms = before ++ (k, v) :: after ∧
          k ∈ seen ++ before.map Prod.fst ∧ v.isArray = false) := by
  induction ms with
  | nil => intro seen acc _ _; simp [loadMembers]
  | cons kv ms ih =>
    obtain ⟨k, v⟩ := kv
    intro seen acc hacc hseen
    cases hv : v.load with
    | none =>
      simp only [loadMembers, hv]
      exact iff_of_true (by simp) (.inl ⟨(k, v), List.mem_cons_self .., hv⟩)
    | some v' =>
      -- what holds of the rest once this member is stored, or dropped
      have hrest : ∀ acc', SortedMap.Sorted acc' →
          (∀ x, x ∈ acc'.map Prod.fst ↔ x ∈ seen ++ [k]) → ¬ (k ∈ seen ∧ v.isArray = false) →
          (loadMembers (.object acc') ms = none ↔
            (∃ kv ∈ (k, v) :: ms, kv.2.load = none) ∨
            ∃ before k' w after, (k, v) :: ms = before ++ (k', w) :: after ∧
              k' ∈ seen ++ before.map Prod.fst ∧ w.isArray = false) := by
        intro acc' hacc' hseen' hk
        rw [ih (seen ++ [k]) acc' hacc' hseen']
        refine or_congr ?_ ⟨?_, ?_⟩
        · simp [hv]
        · rintro ⟨before, k', w, after, rfl, hmem, harr⟩
          exact ⟨(k, v) :: before, k', w, after, rfl, by simpa using hmem, harr⟩
        · rintro ⟨before, k', w, after, heq, hmem, harr⟩
          cases before with
          | nil =>
            cases heq
            exact absurd ⟨by simpa using hmem, harr⟩ hk
          | cons x before =>
            cases heq
            exact ⟨before, k', w, after, rfl, by simpa using hmem, harr⟩
      simp only [loadMembers, hv]
      have harr := load_isArray hv
      rcases accept_cases hacc k v' with ⟨hk, hacc'⟩ | ⟨hk, acc', hacc', hsorted, hperm⟩
      · have hk' := (hseen k).mp hk
        rw [hacc', harr]
        cases h : v.isArray with
        | true =>
          refine hrest acc hacc (fun x => ?_) (by simp [h])
          rw [hseen, List.mem_append, List.mem_singleton]
          exact ⟨.inl, fun hx => hx.elim id fun he => he ▸ hk'⟩
        | false =>
          exact iff_of_true rfl (.inr ⟨[], k, v, ms, rfl, by simpa using hk', h⟩)
      · rw [hacc']
        refine hrest acc' hsorted (fun x => ?_) fun h => hk ((hseen k).mpr h.1)
        rw [(hperm.map Prod.fst).mem_iff, List.map_cons, List.mem_cons, hseen, List.mem_append,
          List.mem_singleton]
        exact or_comm

/-- Loading fails exactly where a member that is not an array repeats a key. -/
theorem load_eq_none (v : Value) :
    v.load = none ↔ ∃ n ∈ v.nodes, n.RepeatsNonArray := by
  induction v using Value.induct with
  | null | boolean | number | string => simp [Value.load, Value.nodes, Value.RepeatsNonArray]
  | object ms ih =>
    have hload : (Value.object ms).load = none ↔ loadMembers (.object []) ms = none := by
      rw [Value.load, Option.map_eq_none_iff]
    rw [hload, loadMembers_eq_none [] [] SortedMap.sorted_nil (fun k => by simp)]
    simp only [Value.nodes, List.exists_mem_cons_iff, mem_memberNodes]
    rw [or_comm]
    refine or_congr (by simp [Value.RepeatsNonArray]) ⟨?_, ?_⟩
    · rintro ⟨kv, hkv, h⟩
      obtain ⟨n, hn, hrep⟩ := (ih kv hkv).mp h
      exact ⟨n, ⟨kv, hkv, hn⟩, hrep⟩
    · rintro ⟨n, ⟨kv, hkv, hn⟩, hrep⟩
      exact ⟨kv, hkv, (ih kv hkv).mpr ⟨n, hn, hrep⟩⟩
  | array vs ih =>
    have hload : (Value.array vs).load = none ↔ loadElements (.array []) vs = none := by
      rw [Value.load, Option.map_eq_none_iff]
    rw [hload, loadElements_eq_none]
    simp only [Value.nodes, List.exists_mem_cons_iff, mem_itemNodes, Value.RepeatsNonArray,
      false_or]
    constructor
    · rintro ⟨v, hv, h⟩
      obtain ⟨n, hn, hrep⟩ := (ih v hv).mp h
      exact ⟨n, ⟨v, hv, hn⟩, hrep⟩
    · rintro ⟨n, ⟨v, hv, hn⟩, hrep⟩
      exact ⟨v, hv, (ih v hv).mpr ⟨n, hn, hrep⟩⟩

end Jopp
