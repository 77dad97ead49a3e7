import Mathlib.Data.List.Basic
import Mathlib.Tactic.Common

/-!
# Jopp.Lib.Readable

Unique readability: texts that tell what they are of, and where they end.

* `Unique text D F a`: among the members of `D`, and before a continuation in `F`, only `a` has a
  text that begins like that of `a`.
* `unique_span`: a word of symbols of one class, before a symbol that is not of that class.
* `sepText`: items with a separator between them. `unique_sepText`: such a list with a closing
  symbol is read uniquely if its items are.
-/

namespace Readable

variable {α β : Type*}

def Unique (text : α → List β) (D : α → Prop) (F : List β → Prop) (a : α) : Prop :=
  ∀ a' r r', D a' → F r → F r' → text a ++ r = text a' ++ r' → a = a' ∧ r = r'

/-! ## Words -/

/-- The next symbol, if there is one, is not of the class `p`. -/
def Ends (p : β → Bool) (r : List β) : Prop := ∀ b ∈ r.head?, p b = false

theorem unique_span {p : β → Bool} {w w' r r' : List β} (hw : ∀ b ∈ w, p b = true)
    (hw' : ∀ b ∈ w', p b = true) (hr : Ends p r) (hr' : Ends p r') (h : w ++ r = w' ++ r') :
    w = w' ∧ r = r' := by
  induction w generalizing w' with
  | nil =>
    cases w' with
    | nil => exact ⟨rfl, h⟩
    | cons b w' =>
      have hb := hr b (by rw [show r = b :: (w' ++ r') from h]; rfl)
      rw [hw' b (List.mem_cons_self ..)] at hb
      cases hb
  | cons b w ih =>
    cases w' with
    | nil =>
      have hb := hr' b (by rw [← show b :: (w ++ r) = r' from h]; rfl)
      rw [hw b (List.mem_cons_self ..)] at hb
      cases hb
    | cons b' w' =>
      obtain ⟨rfl, htail⟩ := List.cons.inj h
      rw [List.forall_mem_cons] at hw hw'
      obtain ⟨rfl, rfl⟩ := ih hw.2 hw'.2 htail
      exact ⟨rfl, rfl⟩

/-! ## Lists with separators -/

def moreText (text : α → List β) (sep : β) (as : List α) : List β :=
  as.flatMap fun a => sep :: text a

/-- Items with the separator between them. -/
def sepText (text : α → List β) (sep : β) : List α → List β
  | [] => []
  | a :: as => text a ++ moreText text sep as

section

variable {text : α → List β} {D : α → Prop} {F : List β → Prop} {sep closer : β}

theorem moreText_cons (a : α) (as : List α) :
    moreText text sep (a :: as) = sep :: (text a ++ moreText text sep as) := rfl

theorem continues_moreText (hsep : ∀ r, F (sep :: r)) (hcloser : ∀ r, F (closer :: r))
    (as : List α) (r : List β) : F (moreText text sep as ++ closer :: r) := by
  cases as with
  | nil => exact hcloser r
  | cons a as => exact hsep _

theorem unique_moreText (hne : sep ≠ closer) (hsep : ∀ r, F (sep :: r))
    (hcloser : ∀ r, F (closer :: r)) {as as' : List α} (h : ∀ a ∈ as, Unique text D F a)
    (has' : ∀ a ∈ as', D a) {r r' : List β}
    (heq : moreText text sep as ++ closer :: r = moreText text sep as' ++ closer :: r') :
    as = as' ∧ r = r' := by
  induction as generalizing as' with
  | nil =>
    cases as' with
    | nil => exact ⟨rfl, (List.cons.inj heq).2⟩
    | cons a' as' => exact absurd (List.cons.inj heq).1.symm hne
  | cons a as ih =>
    cases as' with
    | nil => exact absurd (List.cons.inj heq).1 hne
    | cons a' as' =>
      rw [List.forall_mem_cons] at h has'
      rw [moreText_cons, moreText_cons, List.cons_append, List.cons_append, List.append_assoc,
        List.append_assoc] at heq
      obtain ⟨rfl, hrest⟩ := h.1 a' _ _ has'.1 (continues_moreText hsep hcloser as r)
        (continues_moreText hsep hcloser as' r') (List.cons.inj heq).2
      obtain ⟨rfl, rfl⟩ := ih h.2 has'.2 hrest
      exact ⟨rfl, rfl⟩

/-- No item begins like the closing symbol, so an empty list is told from any other. -/
theorem unique_sepText (hne : sep ≠ closer) (hsep : ∀ r, F (sep :: r))
    (hcloser : ∀ r, F (closer :: r)) (hstart : ∀ a, D a → ∀ r r', text a ++ r ≠ closer :: r')
    {as : List α} (has : ∀ a ∈ as, D a) (h : ∀ a ∈ as, Unique text D F a) :
    Unique (fun as => sepText text sep as ++ [closer]) (fun as => ∀ a ∈ as, D a) (fun _ => True)
      as := by
  intro as' r r' has' _ _ heq
  simp only [List.append_assoc, List.singleton_append] at heq
  cases as with
  | nil =>
    cases as' with
    | nil => exact ⟨rfl, (List.cons.inj heq).2⟩
    | cons a' as' =>
      rw [sepText, sepText, List.append_assoc] at heq
      exact absurd heq.symm (hstart a' (has' a' (List.mem_cons_self ..)) _ _)
  | cons a as =>
    cases as' with
    | nil =>
      rw [sepText, sepText, List.append_assoc] at heq
      exact absurd heq (hstart a (has a (List.mem_cons_self ..)) _ _)
    | cons a' as' =>
      rw [List.forall_mem_cons] at h has'
      rw [sepText, sepText, List.append_assoc, List.append_assoc] at heq
      obtain ⟨rfl, hrest⟩ := h.1 a' _ _ has'.1 (continues_moreText hsep hcloser as r)
        (continues_moreText hsep hcloser as' r') heq
      obtain ⟨rfl, rfl⟩ := unique_moreText hne hsep hcloser h.2 has'.2 hrest
      exact ⟨rfl, rfl⟩

end

end Readable
