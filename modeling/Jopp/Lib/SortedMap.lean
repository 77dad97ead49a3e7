import Mathlib.Data.List.Basic
import Mathlib.Data.List.Perm.Basic
import Mathlib.Tactic.Common

/-!
# Jopp.Lib.SortedMap

Ordered maps as association lists with strictly increasing keys, over any key type with a
decidable strict order.

* `Sorted`: the representation invariant, kept by `insert` (`insert_sorted`).
* `insert`: insertion that keeps the entry already there, and says whether it inserted.
  `insertOrAssign`: the same with the value of such an entry replaced.
* `find`: lookup by the order alone. `find_insert`, `find_insertOrAssign`: lookup after the two.
* `eq_of_perm`, `ext`: a sorted map is determined by its entries, and by what is found in it.
-/

namespace SortedMap

variable {κ α : Type*} [LT κ]

/-- Keys strictly increase along the list. -/
def Sorted (m : List (κ × α)) : Prop := m.Pairwise (fun x y => x.1 < y.1)

theorem sorted_nil : Sorted ([] : List (κ × α)) := List.Pairwise.nil

section Irrefl

variable [Std.Irrefl (fun x y : κ => x < y)]

theorem Sorted.nodup {m : List (κ × α)} (hm : Sorted m) : (m.map Prod.fst).Nodup := by
  rw [List.Nodup, List.pairwise_map]
  refine hm.imp fun h he => ?_
  rw [he] at h
  exact Std.Irrefl.irrefl _ h

theorem Sorted.nodup_entries {m : List (κ × α)} (hm : Sorted m) : m.Nodup :=
  hm.imp fun hlt heq => by
    rw [heq] at hlt
    exact Std.Irrefl.irrefl _ hlt

theorem eq_of_perm [Trans (fun x y : κ => x < y) (fun x y : κ => x < y) (fun x y : κ => x < y)]
    {m m' : List (κ × α)} (hm : Sorted m) (hm' : Sorted m') (h : m.Perm m') : m = m' := by
  refine h.eq_of_pairwise (fun x y _ _ hxy hyx => ?_) hm hm'
  exact absurd (Trans.trans hxy hyx : x.1 < x.1) (Std.Irrefl.irrefl x.1)

end Irrefl

theorem eq_of_not_lt [Std.Trichotomous (fun x y : κ => x < y)]
    {k k' : κ} (h : ¬ k < k') (h' : ¬ k' < k) : k = k' :=
  Std.Trichotomous.trichotomous k k' h h'

/-! ## Inserting, assigning and looking up -/

variable [DecidableLT κ]

/-- Insert `(k, a)` unless the key is present; the flag tells which of the two happened. -/
def insert (k : κ) (a : α) : List (κ × α) → List (κ × α) × Bool
  | [] => ([(k, a)], true)
  | (k', a') :: m =>
    if k < k' then ((k, a) :: (k', a') :: m, true)
    else if k' < k then ((k', a') :: (insert k a m).1, (insert k a m).2)
    else ((k', a') :: m, false)

/-- Insert `(k, a)`, or put `a` in place of the value the key has. -/
def insertOrAssign (k : κ) (a : α) : List (κ × α) → List (κ × α) × Bool
  | [] => ([(k, a)], true)
  | (k', a') :: m =>
    if k < k' then ((k, a) :: (k', a') :: m, true)
    else if k' < k then ((k', a') :: (insertOrAssign k a m).1, (insertOrAssign k a m).2)
    else ((k', a) :: m, false)

def find (k : κ) : List (κ × α) → Option α
  | [] => none
  | (k', a') :: m =>
    if k' < k then find k m
    else if k < k' then none
    else some a'

instance (m : List (κ × α)) : Decidable (Sorted m) :=
  inferInstanceAs (Decidable (m.Pairwise _))

theorem mem_insert {k : κ} {a : α} {m : List (κ × α)} {x : κ × α}
    (hx : x ∈ (insert k a m).1) : x = (k, a) ∨ x ∈ m := by
  induction m with
  | nil => simpa [insert] using hx
  | cons y m ih =>
    obtain ⟨k', a'⟩ := y
    simp only [insert] at hx
    split at hx
    · simpa using hx
    · split at hx
      · rcases List.mem_cons.mp hx with rfl | hx
        · simp
        · rcases ih hx with h | h
          · exact .inl h
          · exact .inr (List.mem_cons_of_mem _ h)
      · exact .inr hx

theorem insert_refused {k : κ} {a : α} {m : List (κ × α)} (h : (insert k a m).2 = false) :
    (insert k a m).1 = m := by
  induction m with
  | nil => simp [insert] at h
  | cons y m ih =>
    obtain ⟨k', a'⟩ := y
    simp only [insert] at h ⊢
    split at h
    · cases h
    · split at h
      · rename_i h1 h2
        rw [if_neg h1, if_pos h2]
        exact congrArg _ (ih h)
      · rename_i h1 h2
        rw [if_neg h1, if_neg h2]

theorem insert_snd_congr (k : κ) (a b : α) (m : List (κ × α)) :
    (insert k a m).2 = (insert k b m).2 := by
  induction m with
  | nil => rfl
  | cons y m ih =>
    obtain ⟨k', a'⟩ := y
    simp only [insert]
    split
    · rfl
    · split
      · exact ih
      · rfl

theorem insert_perm {k : κ} {a : α} {m : List (κ × α)} (h : (insert k a m).2 = true) :
    (insert k a m).1.Perm ((k, a) :: m) := by
  induction m with
  | nil => exact .refl _
  | cons y m ih =>
    obtain ⟨k', a'⟩ := y
    simp only [insert] at h ⊢
    split at h
    · rename_i h1
      rw [if_pos h1]
    · split at h
      · rename_i h1 h2
        rw [if_neg h1, if_pos h2]
        exact ((ih h).cons _).trans (.swap _ _ _)
      · cases h

theorem insertOrAssign_snd (k : κ) (a : α) (m : List (κ × α)) :
    (insertOrAssign k a m).2 = (insert k a m).2 := by
  induction m with
  | nil => rfl
  | cons y m ih =>
    obtain ⟨k', a'⟩ := y
    simp only [insertOrAssign, insert, ih]
    split
    · rfl
    · split <;> rfl

theorem insert_sorted [Trans (fun x y : κ => x < y) (fun x y : κ => x < y) (fun x y : κ => x < y)]
    {k : κ} {a : α} {m : List (κ × α)} (hm : Sorted m) : Sorted (insert k a m).1 := by
  induction m with
  | nil => simp [insert, Sorted]
  | cons y m ih =>
    obtain ⟨k', a'⟩ := y
    have hhead := (List.pairwise_cons.mp hm).1
    have htail : Sorted m := (List.pairwise_cons.mp hm).2
    simp only [insert]
    split
    · rename_i h1
      refine List.pairwise_cons.mpr ⟨fun x hx => ?_, hm⟩
      rcases List.mem_cons.mp hx with rfl | hx
      · exact h1
      · exact Trans.trans h1 (hhead x hx)
    · split
      · rename_i h2
        refine List.pairwise_cons.mpr ⟨fun x hx => ?_, ih htail⟩
        rcases mem_insert hx with rfl | hx
        · exact h2
        · exact hhead x hx
      · exact hm

section Order

variable [Std.Trichotomous (fun x y : κ => x < y)]

theorem mem_of_insert_refused {k : κ} {a : α} {m : List (κ × α)} (h : (insert k a m).2 = false) :
    k ∈ m.map Prod.fst := by
  induction m with
  | nil => cases h
  | cons y m ih =>
    obtain ⟨k', a'⟩ := y
    simp only [insert] at h
    split at h
    · cases h
    split at h
    · exact List.mem_cons_of_mem _ (ih h)
    · rename_i h1 h2
      rw [eq_of_not_lt h1 h2]
      exact List.mem_cons_self ..

theorem insert_injective {k : κ} {a b : α} {m : List (κ × α)} (hk : k ∉ m.map Prod.fst)
    (h : (insert k a m).1 = (insert k b m).1) : a = b := by
  have hins : (insert k a m).2 = true := by
    by_contra hins
    exact hk (mem_of_insert_refused (by simpa using hins))
  have hmem : (k, a) ∈ (insert k b m).1 := by
    rw [← h]
    exact (insert_perm hins).symm.subset (List.mem_cons_self ..)
  rcases mem_insert hmem with heq | hmem
  · exact congrArg Prod.snd heq
  · exact absurd (List.mem_map_of_mem hmem) hk

variable [Std.Irrefl (fun x y : κ => x < y)]

theorem find_eq_some {k : κ} {a : α} {m : List (κ × α)} (hm : Sorted m) :
    find k m = some a ↔ (k, a) ∈ m := by
  induction m with
  | nil => simp [find]
  | cons y m ih =>
    obtain ⟨k', a'⟩ := y
    have hhead := (List.pairwise_cons.mp hm).1
    have htail : Sorted m := (List.pairwise_cons.mp hm).2
    simp only [find, List.mem_cons, Prod.mk.injEq]
    split
    · rename_i h1
      rw [ih htail]
      refine ⟨.inr, ?_⟩
      rintro (⟨rfl, rfl⟩ | h)
      · exact absurd h1 (Std.Irrefl.irrefl k)
      · exact h
    · rename_i h1
      have hnot : (k, a) ∉ m := fun h => h1 (hhead _ h)
      split
      · rename_i h2
        refine iff_of_false (by simp) ?_
        rintro (⟨rfl, rfl⟩ | h)
        · exact Std.Irrefl.irrefl k h2
        · exact hnot h
      · rename_i h2
        obtain rfl := eq_of_not_lt h1 h2
        simp [hnot, eq_comm]

theorem Sorted.value_unique {k : κ} {a b : α} {m : List (κ × α)} (hm : Sorted m)
    (ha : (k, a) ∈ m) (hb : (k, b) ∈ m) : a = b := by
  rw [← find_eq_some hm] at ha hb
  exact Option.some.inj (ha.symm.trans hb)

theorem find_eq_none {k : κ} {m : List (κ × α)} (hm : Sorted m) :
    find k m = none ↔ k ∉ m.map Prod.fst := by
  rw [Option.eq_none_iff_forall_ne_some]
  constructor
  · rintro h hk
    obtain ⟨⟨k', a⟩, hmem, rfl⟩ := List.mem_map.mp hk
    exact h a ((find_eq_some hm).mpr hmem)
  · intro h a ha
    exact h (List.mem_map_of_mem ((find_eq_some hm).mp ha))

variable [Trans (fun x y : κ => x < y) (fun x y : κ => x < y) (fun x y : κ => x < y)]

theorem insert_snd_eq_false {k : κ} {a : α} {m : List (κ × α)} (hm : Sorted m) :
    (insert k a m).2 = false ↔ k ∈ m.map Prod.fst := by
  induction m with
  | nil => simp [insert]
  | cons y m ih =>
    obtain ⟨k', a'⟩ := y
    have hhead := (List.pairwise_cons.mp hm).1
    have htail : Sorted m := (List.pairwise_cons.mp hm).2
    simp only [insert, List.map_cons, List.mem_cons]
    split
    · rename_i h1
      refine iff_of_false (by simp) ?_
      rintro (rfl | hk)
      · exact Std.Irrefl.irrefl k h1
      · obtain ⟨x, hx, rfl⟩ := List.mem_map.mp hk
        exact Std.Irrefl.irrefl x.1 (Trans.trans h1 (hhead x hx))
    · split
      · rename_i h1 h2
        rw [ih htail]
        refine ⟨.inr, ?_⟩
        rintro (rfl | hk)
        · exact absurd h2 h1
        · exact hk
      · rename_i h1 h2
        exact iff_of_true rfl (.inl (eq_of_not_lt h1 h2))

theorem ext {m m' : List (κ × α)} (hm : Sorted m) (hm' : Sorted m')
    (h : ∀ k, find k m = find k m') : m = m' := by
  refine eq_of_perm hm hm' ((List.perm_ext_iff_of_nodup hm.nodup_entries hm'.nodup_entries).mpr ?_)
  rintro ⟨k, a⟩
  rw [← find_eq_some hm, ← find_eq_some hm', h k]

theorem insert_snd {k : κ} {a : α} {m : List (κ × α)} (hm : Sorted m) :
    (insert k a m).2 = (find k m).isNone := by
  have hrefused := insert_snd_eq_false (k := k) (a := a) hm
  cases hk : find k m with
  | none =>
    rw [← not_iff_not, ← find_eq_none hm] at hrefused
    simpa using hrefused.mpr hk
  | some a' =>
    rw [hrefused.mpr]
    · rfl
    · exact List.mem_map_of_mem ((find_eq_some hm).mp hk)

/-- Lookup after an insertion: a value that is there stays. -/
theorem find_insert [DecidableEq κ] {k k' : κ} {a : α} {m : List (κ × α)} (hm : Sorted m) :
    find k' (insert k a m).1 = if k' = k then some ((find k m).getD a) else find k' m := by
  cases hk : find k m with
  | some a' =>
    have hrefused : (insert k a m).2 = false := by rw [insert_snd hm, hk]; rfl
    rw [insert_refused hrefused]
    split
    · rename_i heq
      rw [heq, hk]
      rfl
    · rfl
  | none =>
    have hinserted : (insert k a m).2 = true := by rw [insert_snd hm, hk]; rfl
    have hmem : ∀ x, x ∈ (insert k a m).1 ↔ x ∈ (k, a) :: m := fun x =>
      (insert_perm hinserted).mem_iff
    have hfree := (find_eq_none hm).mp hk
    ext b
    rw [find_eq_some (insert_sorted hm), hmem, List.mem_cons, Prod.mk.injEq]
    split
    · rename_i heq
      subst heq
      have hnot : (k', b) ∉ m := fun h => hfree (List.mem_map_of_mem h)
      simp [hnot, eq_comm]
    · rename_i hne
      rw [find_eq_some hm]
      simp [hne]

theorem mem_insertOrAssign {k : κ} {a : α} {m : List (κ × α)} (hm : Sorted m) (x : κ × α) :
    x ∈ (insertOrAssign k a m).1 ↔ x = (k, a) ∨ (x ∈ m ∧ x.1 ≠ k) := by
  induction m with
  | nil => simp [insertOrAssign]
  | cons y m ih =>
    obtain ⟨k', a'⟩ := y
    have hhead := (List.pairwise_cons.mp hm).1
    have htail : Sorted m := (List.pairwise_cons.mp hm).2
    have hne : ∀ {j}, j < k' ∨ j = k' → ∀ x ∈ m, x.1 ≠ j := by
      rintro j hj x hx rfl
      have hlt := hhead x hx
      rcases hj with hj | hj
      · exact Std.Irrefl.irrefl x.1 (Trans.trans hj hlt)
      · rw [← hj] at hlt
        exact Std.Irrefl.irrefl _ hlt
    simp only [insertOrAssign]
    split
    · rename_i h1
      have hk' : k' ≠ k := by
        rintro rfl
        exact Std.Irrefl.irrefl k' h1
      have hall : x ∈ (k', a') :: m → x.1 ≠ k := by
        intro hx
        rcases List.mem_cons.mp hx with rfl | hx
        · exact hk'
        · exact hne (.inl h1) x hx
      rw [List.mem_cons]
      exact or_congr_right ⟨fun hx => ⟨hx, hall hx⟩, And.left⟩
    · split
      · rename_i h2
        have hk' : k' ≠ k := by
          rintro rfl
          exact Std.Irrefl.irrefl k' h2
        rw [List.mem_cons, List.mem_cons, ih htail]
        constructor
        · rintro (rfl | rfl | ⟨hx, hxk⟩)
          · exact .inr ⟨.inl rfl, hk'⟩
          · exact .inl rfl
          · exact .inr ⟨.inr hx, hxk⟩
        · rintro (rfl | ⟨rfl | hx, hxk⟩)
          · exact .inr (.inl rfl)
          · exact .inl rfl
          · exact .inr (.inr ⟨hx, hxk⟩)
      · rename_i h1 h2
        obtain rfl := eq_of_not_lt h1 h2
        rw [List.mem_cons, List.mem_cons]
        constructor
        · rintro (rfl | hx)
          · exact .inl rfl
          · exact .inr ⟨.inr hx, hne (.inr rfl) x hx⟩
        · rintro (rfl | ⟨rfl | hx, hxk⟩)
          · exact .inl rfl
          · exact absurd rfl hxk
          · exact .inr hx

theorem insertOrAssign_sorted {k : κ} {a : α} {m : List (κ × α)} (hm : Sorted m) :
    Sorted (insertOrAssign k a m).1 := by
  induction m with
  | nil => simp [insertOrAssign, Sorted]
  | cons y m ih =>
    obtain ⟨k', a'⟩ := y
    have hhead := (List.pairwise_cons.mp hm).1
    have htail : Sorted m := (List.pairwise_cons.mp hm).2
    simp only [insertOrAssign]
    split
    · rename_i h1
      refine List.pairwise_cons.mpr ⟨fun x hx => ?_, hm⟩
      rcases List.mem_cons.mp hx with rfl | hx
      · exact h1
      · exact Trans.trans h1 (hhead x hx)
    · split
      · rename_i h2
        refine List.pairwise_cons.mpr ⟨fun x hx => ?_, ih htail⟩
        rcases (mem_insertOrAssign htail x).mp hx with rfl | ⟨hx, -⟩
        · exact h2
        · exact hhead x hx
      · exact List.pairwise_cons.mpr ⟨hhead, htail⟩

theorem find_insertOrAssign [DecidableEq κ] {k k' : κ} {a : α} {m : List (κ × α)}
    (hm : Sorted m) :
    find k' (insertOrAssign k a m).1 = if k' = k then some a else find k' m := by
  ext b
  rw [find_eq_some (insertOrAssign_sorted hm), mem_insertOrAssign hm, Prod.mk.injEq]
  split
  · rename_i heq
    simp [heq, eq_comm]
  · rename_i hne
    rw [find_eq_some hm]
    simp [hne]

end Order

end SortedMap
