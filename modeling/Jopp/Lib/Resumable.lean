import Mathlib.Data.List.Basic
import Mathlib.Tactic.Common

/-!
# Jopp.Lib.Resumable

Machines that read a stream of symbols and can be resumed with more of it. One step looks at one
symbol and either consumes it (`next`), changes state and asks to see it again (`back`), or stops
(`stop`), the symbol being consumed.

* `loop`: the machine as a fuel-bounded loop over single steps, a handed-back symbol costing
  one more step.
* `scan`: the same by recursion on the input, for machines that never hand a symbol back twice in
  a row (`Settles`); `loop_eq_scan` relates the two and bounds the number of steps.
* `scan_append`: reading in pieces is reading the whole.
* `scan_inv`, `scan_foldl_inv`, `scan_backward`: the invariant rules, the second (with
  `scan_foldl_stop` where the machine stops) for invariants that speak of the symbols read, the
  third from the stop backwards.
* `scan_map`, `scan_map_until`: the rules for a map between two machines.
* `Reads`: what reading a word does before a given continuation.
-/

namespace Resumable

variable {σ τ ε α : Type*}

inductive Move (σ ε : Type*) where
  | next (s : σ)
  | back (s : σ)
  | stop (s : σ) (e : ε)

/-- `more s`: the input is used up in state `s`. `stopped s e n`: the machine stopped in `s` with
`e`, having consumed `n` symbols. -/
inductive Result (σ ε : Type*) where
  | more (s : σ)
  | stopped (s : σ) (e : ε) (n : Nat)

namespace Move

def map (f : σ → τ) : Move σ ε → Move τ ε
  | next s => next (f s)
  | back s => back (f s)
  | stop s e => stop (f s) e

theorem map_id (m : Move σ ε) : m.map id = m := by
  cases m <;> rfl

end Move

namespace Result

def after (m : Nat) : Result σ ε → Result σ ε
  | more s => more s
  | stopped s e n => stopped s e (m + n)

/-- Continue with `f` from the state reached after `m` symbols, unless the machine stopped. -/
def andThen (m : Nat) (f : σ → Result σ ε) : Result σ ε → Result σ ε
  | more s => (f s).after m
  | stopped s e n => stopped s e n

def map (f : σ → τ) : Result σ ε → Result τ ε
  | more s => more (f s)
  | stopped s e n => stopped (f s) e n

/-- `I` holds of the state reached on all the input, `P` where the machine stopped. -/
def Sat (I : σ → Prop) (P : σ → ε → Prop) : Result σ ε → Prop
  | more s => I s
  | stopped s e _ => P s e

@[simp] theorem after_more (m : Nat) (s : σ) : (more s : Result σ ε).after m = more s := rfl

@[simp] theorem after_stopped (m n : Nat) (s : σ) (e : ε) :
    (stopped s e n).after m = stopped s e (m + n) := rfl

@[simp] theorem after_zero (r : Result σ ε) : r.after 0 = r := by
  cases r <;> simp

@[simp] theorem after_after (m n : Nat) (r : Result σ ε) :
    (r.after n).after m = r.after (m + n) := by
  cases r <;> simp [Nat.add_assoc]

theorem map_id (r : Result σ ε) : r.map id = r := by
  cases r <;> rfl

theorem map_after (f : σ → τ) (m : Nat) (r : Result σ ε) :
    (r.after m).map f = (r.map f).after m := by
  cases r <;> rfl

theorem Sat.after {I : σ → Prop} {P : σ → ε → Prop} {r : Result σ ε} (h : r.Sat I P) (m : Nat) :
    (r.after m).Sat I P := by
  cases r <;> exact h

end Result

section Machine

variable (step : σ → α → Move σ ε)

/-- No symbol is handed back twice in a row. -/
def Settles : Prop :=
  ∀ s a s', step s a = .back s' → ∀ s'', step s' a ≠ .back s''

/-- Run single steps, at most `fuel` of them; `none` means the fuel ran out. -/
def loop : Nat → σ → List α → Option (Result σ ε)
  | 0, _, _ => none
  | _ + 1, s, [] => some (.more s)
  | fuel + 1, s, a :: as =>
    match step s a with
    | .next s' => (loop fuel s' as).map (·.after 1)
    | .back s' => loop fuel s' (a :: as)
    | .stop s' e => some (.stopped s' e 1)

/-- All that happens at one symbol: one step, and a second one if the symbol was handed back. -/
def eat (s : σ) (a : α) : Except (σ × ε) σ :=
  match step s a with
  | .next s' => .ok s'
  | .stop s' e => .error (s', e)
  | .back s' =>
    match step s' a with
    | .next s'' => .ok s''
    | .stop s'' e => .error (s'', e)
    | .back s'' => .ok s''

def scan : σ → List α → Result σ ε
  | s, [] => .more s
  | s, a :: as =>
    match eat step s a with
    | .ok s' => (scan s' as).after 1
    | .error (s', e) => .stopped s' e 1

variable {step}

theorem eat_next {s s' : σ} {a : α} (h : step s a = .next s') : eat step s a = .ok s' := by
  simp [eat, h]

theorem eat_stop {s s' : σ} {a : α} {e : ε} (h : step s a = .stop s' e) :
    eat step s a = .error (s', e) := by
  simp [eat, h]

theorem eat_back (hstep : Settles step) {s s' : σ} {a : α} (h : step s a = .back s') :
    eat step s a = eat step s' a := by
  simp only [eat, h]
  cases h' : step s' a with
  | next s'' => rfl
  | stop s'' e => rfl
  | back s'' => exact absurd h' (hstep s a s' h s'')

theorem scan_cons_ok {s s' : σ} {a : α} (as : List α) (h : eat step s a = .ok s') :
    scan step s (a :: as) = (scan step s' as).after 1 := by
  simp [scan, h]

theorem scan_cons_error {s s' : σ} {a : α} {e : ε} (as : List α)
    (h : eat step s a = .error (s', e)) : scan step s (a :: as) = .stopped s' e 1 := by
  simp [scan, h]

theorem scan_cons_congr {s t : σ} {a : α} (as : List α) (h : eat step s a = eat step t a) :
    scan step s (a :: as) = scan step t (a :: as) := by
  simp only [scan, h]

/-- Twice the length of the input, plus one, is fuel enough. -/
theorem loop_eq_scan (hstep : Settles step) :
    ∀ {fuel : Nat} {s : σ} {w : List α}, 2 * w.length < fuel →
      loop step fuel s w = some (scan step s w) := by
  intro fuel s w
  induction w generalizing fuel s with
  | nil =>
    intro hf
    obtain ⟨f, rfl⟩ : ∃ f, fuel = f + 1 := ⟨fuel - 1, by simp at hf; omega⟩
    rfl
  | cons a as ih =>
    intro hf
    simp only [List.length_cons] at hf
    obtain ⟨f, rfl⟩ : ∃ f, fuel = f + 2 := ⟨fuel - 2, by omega⟩
    cases h : step s a with
    | next s' =>
      simp only [loop, h, scan, eat_next h]
      rw [ih (by omega)]; rfl
    | stop s' e => simp only [loop, h, scan, eat_stop h]
    | back s' =>
      simp only [loop, h, scan, eat_back hstep h]
      cases h' : step s' a with
      | next s'' =>
        simp only [eat_next h']
        rw [ih (by omega)]; rfl
      | stop s'' e => simp only [eat_stop h']
      | back s'' => exact absurd h' (hstep s a s' h s'')

/-! ## Reading in pieces -/

theorem scan_append (s : σ) (u v : List α) :
    scan step s (u ++ v) = (scan step s u).andThen u.length fun s' => scan step s' v := by
  induction u generalizing s with
  | nil => simp [scan, Result.andThen]
  | cons a as ih =>
    simp only [List.cons_append, scan]
    cases h : eat step s a with
    | ok s' =>
      simp only [ih]
      cases scan step s' as <;> simp [Result.andThen, Nat.add_comm]
    | error x => rfl

theorem scan_append_more {s s' : σ} {u : List α} (h : scan step s u = .more s') (v : List α) :
    scan step s (u ++ v) = (scan step s' v).after u.length := by
  rw [scan_append, h]; rfl

theorem scan_append_stopped {s s' : σ} {e : ε} {n : Nat} {u : List α}
    (h : scan step s u = .stopped s' e n) (v : List α) :
    scan step s (u ++ v) = .stopped s' e n := by
  rw [scan_append, h]; rfl

/-- Where the machine stopped: it had read some prefix without stopping, and stopped at the next
symbol. -/
theorem scan_stopped {s s' : σ} {e : ε} {n : Nat} {w : List α}
    (h : scan step s w = .stopped s' e n) :
    ∃ u a v q, w = u ++ a :: v ∧ n = u.length + 1 ∧ scan step s u = .more q ∧
      eat step q a = .error (s', e) := by
  induction w generalizing s n with
  | nil => simp [scan] at h
  | cons a as ih =>
    cases he : eat step s a with
    | error x =>
      obtain ⟨s₁, e₁⟩ := x
      rw [scan_cons_error as he] at h
      cases h
      exact ⟨[], a, as, s, rfl, rfl, rfl, he⟩
    | ok s₁ =>
      rw [scan_cons_ok as he] at h
      cases hr : scan step s₁ as with
      | more q => simp [hr] at h
      | stopped q e' m =>
        simp only [hr, Result.after_stopped, Result.stopped.injEq] at h
        obtain ⟨rfl, rfl, rfl⟩ := h
        obtain ⟨u, b, v, q', rfl, rfl, hu, hb⟩ := ih hr
        exact ⟨a :: u, b, v, q', rfl, by simp [Nat.add_comm], by simp [scan, he, hu], hb⟩

/-- A stop does not depend on what follows the consumed symbols. -/
theorem scan_stopped_take {s s' : σ} {e : ε} {n : Nat} {w : List α}
    (h : scan step s w = .stopped s' e n) (v : List α) :
    n ≤ w.length ∧ scan step s (w.take n ++ v) = .stopped s' e n := by
  obtain ⟨u, a, v', q, rfl, rfl, hu, ha⟩ := scan_stopped h
  refine ⟨by simp, ?_⟩
  have hw : (u ++ a :: v').take (u.length + 1) = u ++ [a] := by
    simp [List.take_append, List.take_of_length_le]
  rw [hw, List.append_assoc, scan_append_more hu, List.singleton_append, scan_cons_error v ha]
  rfl

/-! ## Invariants and maps -/

/-- The invariant rule: `I` is kept at each symbol, and `P` holds wherever the machine stops. -/
theorem scan_inv {I : σ → Prop} {P : σ → ε → Prop}
    (hok : ∀ s a s', I s → eat step s a = .ok s' → I s')
    (hstop : ∀ s a s' e, I s → eat step s a = .error (s', e) → P s' e) {s : σ} (hs : I s)
    (w : List α) : (scan step s w).Sat I P := by
  induction w generalizing s with
  | nil => exact hs
  | cons a as ih =>
    cases he : eat step s a with
    | error x => rw [scan_cons_error as he]; exact hstop _ _ _ _ hs he
    | ok s₁ => rw [scan_cons_ok as he]; exact (ih (hok _ _ _ hs he)).after 1

/-- For the invariant rule it is enough to check single steps. -/
theorem scan_inv_step {I : σ → Prop} {P : σ → ε → Prop}
    (hnext : ∀ s a s', I s → step s a = .next s' → I s')
    (hback : ∀ s a s', I s → step s a = .back s' → I s')
    (hstop : ∀ s a s' e, I s → step s a = .stop s' e → P s' e) {s : σ} (hs : I s)
    (w : List α) : (scan step s w).Sat I P := by
  have heat : ∀ s a, I s →
      match eat step s a with
      | .ok s' => I s'
      | .error (s', e) => P s' e := by
    intro s a hs
    simp only [eat]
    cases h : step s a with
    | next s₁ => exact hnext _ _ _ hs h
    | stop s₁ e₁ => exact hstop _ _ _ _ hs h
    | back s₁ =>
      have hs₁ := hback _ _ _ hs h
      simp only []
      cases h₁ : step s₁ a with
      | next s₂ => exact hnext _ _ _ hs₁ h₁
      | stop s₂ e₂ => exact hstop _ _ _ _ hs₁ h₁
      | back s₂ => exact hback _ _ _ hs₁ h₁
  refine scan_inv (fun s a s' hs he => ?_) (fun s a s' e hs he => ?_) hs w
  · have := heat s a hs
    rwa [he] at this
  · have := heat s a hs
    rwa [he] at this

/-- The invariant rule for an invariant that also speaks of the symbols read, as far as the
summary `g` keeps them. -/
theorem scan_foldl_inv {γ : Type*} {g : γ → α → γ} {I : σ → γ → Prop} (hsettles : Settles step)
    (hnext : ∀ s a c s', I s c → step s a = .next s' → I s' (g c a))
    (hback : ∀ s a c s', I s c → step s a = .back s' → I s' c) {s s' : σ} {c : γ} (hs : I s c)
    {w : List α} (h : scan step s w = .more s') : I s' (w.foldl g c) := by
  induction w generalizing s c with
  | nil =>
    cases h
    exact hs
  | cons a as ih =>
    have heat : ∀ t, eat step s a = .ok t → I t (g c a) := by
      intro t ht
      cases hstep : step s a with
      | next r =>
        rw [eat_next hstep] at ht
        cases ht
        exact hnext _ _ _ _ hs hstep
      | stop r e =>
        rw [eat_stop hstep] at ht
        cases ht
      | back r =>
        have hr := hback _ _ _ _ hs hstep
        rw [eat_back hsettles hstep] at ht
        cases hstep' : step r a with
        | next r' =>
          rw [eat_next hstep'] at ht
          cases ht
          exact hnext _ _ _ _ hr hstep'
        | stop r' e =>
          rw [eat_stop hstep'] at ht
          cases ht
        | back r' => exact absurd hstep' (hsettles s a r hstep r')
    cases he : eat step s a with
    | error x =>
      rw [scan_cons_error as he] at h
      cases h
    | ok t =>
      rw [scan_cons_ok as he] at h
      cases hrun : scan step t as with
      | stopped r e n =>
        rw [hrun] at h
        cases h
      | more r =>
        rw [hrun] at h
        cases h
        exact ih (heat t he) hrun

/-- The same rule at a stop: `P` holds there, of what the symbols before the last one add up to and
of the last one. -/
theorem scan_foldl_stop {γ : Type*} {g : γ → α → γ} {I : σ → γ → Prop} {P : σ → ε → γ → α → Prop}
    (hsettles : Settles step) (hnext : ∀ s a c s', I s c → step s a = .next s' → I s' (g c a))
    (hback : ∀ s a c s', I s c → step s a = .back s' → I s' c)
    (hstop : ∀ s a c s' e, I s c → step s a = .stop s' e → P s' e c a) {s s' : σ} {c : γ}
    (hs : I s c) {w : List α} {e : ε} {n : Nat} (h : scan step s w = .stopped s' e n) :
    ∃ u a v, w = u ++ a :: v ∧ n = u.length + 1 ∧ P s' e (u.foldl g c) a := by
  obtain ⟨u, a, v, q, hw, hn, hu, heat⟩ := scan_stopped h
  refine ⟨u, a, v, hw, hn, ?_⟩
  have hq := scan_foldl_inv hsettles hnext hback hs hu
  cases hstep : step q a with
  | next r =>
    rw [eat_next hstep] at heat
    cases heat
  | stop r e' =>
    rw [eat_stop hstep] at heat
    cases heat
    exact hstop _ _ _ _ _ hq hstep
  | back r =>
    rw [eat_back hsettles hstep] at heat
    cases hstep' : step r a with
    | next r' =>
      rw [eat_next hstep'] at heat
      cases heat
    | back r' => exact absurd hstep' (hsettles q a r hstep r')
    | stop r' e' =>
      rw [eat_stop hstep'] at heat
      cases heat
      exact hstop _ _ _ _ _ (hback _ _ _ _ hq hstep) hstep'

theorem foldl_concat (u w : List α) : w.foldl (fun v a => v ++ [a]) u = u ++ w := by
  induction w generalizing u with
  | nil => exact (List.append_nil u).symm
  | cons a w ih => rw [List.foldl_cons, ih, List.append_assoc, List.singleton_append]

/-- The backward rule: `D` is established at the stop, and carried back over each step of a run
that keeps `I`. Then it holds of the state the run started in and the symbols consumed. -/
theorem scan_backward {I : σ → Prop} {D : σ → List α → Prop} {P : ε → Prop}
    (hnext : ∀ s a s', I s → step s a = .next s' → I s' ∧ ∀ w, D s' w → D s (a :: w))
    (hback : ∀ s a s', I s → step s a = .back s' → I s' ∧ ∀ w, D s' (a :: w) → D s (a :: w))
    (hstop : ∀ s a s' e, I s → step s a = .stop s' e → P e → D s [a]) (hsettles : Settles step) :
    ∀ (w : List α) {s s' : σ} {e : ε} {n : Nat}, I s → scan step s w = .stopped s' e n → P e →
      D s (w.take n) := by
  intro w
  induction w with
  | nil => intro s s' e n _ h; cases h
  | cons a w ih =>
    -- one step that does not hand the symbol back
    have hone : ∀ {s s' : σ} {e : ε} {n : Nat}, I s → (∀ r, step s a ≠ .back r) →
        scan step s (a :: w) = .stopped s' e n → P e → D s ((a :: w).take n) := by
      intro s s' e n hI hne h hP
      cases hs : step s a with
      | back r => exact absurd hs (hne r)
      | stop r e' =>
        rw [scan_cons_error w (eat_stop hs)] at h
        cases h
        exact hstop s a _ _ hI hs hP
      | next r =>
        obtain ⟨hr, hD⟩ := hnext s a r hI hs
        rw [scan_cons_ok w (eat_next hs)] at h
        cases hrun : scan step r w with
        | more t =>
          rw [hrun] at h
          cases h
        | stopped t e' m =>
          rw [hrun] at h
          cases h
          rw [Nat.add_comm, List.take_succ_cons]
          exact hD _ (ih hr hrun hP)
    intro s s' e n hI h hP
    cases hs : step s a with
    | back r =>
      obtain ⟨hr, hD⟩ := hback s a r hI hs
      rw [scan_cons_congr w (eat_back hsettles hs)] at h
      have hrest := hone hr (hsettles s a r hs) h hP
      cases n with
      | zero =>
        -- a stop consumes a symbol
        obtain ⟨u, b, v, q, -, hn, -, -⟩ := scan_stopped h
        omega
      | succ n =>
        rw [List.take_succ_cons] at hrest ⊢
        exact hD _ hrest
    | next r => exact hone hI (fun r' hr' => by rw [hs] at hr'; cases hr') h hP
    | stop r e' => exact hone hI (fun r' hr' => by rw [hs] at hr'; cases hr') h hP

theorem eat_map {step' : τ → α → Move τ ε} {f : σ → τ} {s : σ} {a : α}
    (hs : step' (f s) a = (step s a).map f)
    (hback : ∀ s', step s a = .back s' → step' (f s') a = (step s' a).map f) :
    eat step' (f s) a =
      match eat step s a with
      | .ok s' => .ok (f s')
      | .error (s', e) => .error (f s', e) := by
  simp only [eat, hs]
  cases h : step s a with
  | next s' => rfl
  | stop s' e => rfl
  | back s' =>
    simp only [Move.map, hback s' h]
    cases h' : step s' a <;> rfl

theorem scan_map {step' : τ → α → Move τ ε} {f : σ → τ}
    (hf : ∀ s a, step' (f s) a = (step s a).map f) (s : σ) (w : List α) :
    scan step' (f s) w = (scan step s w).map f := by
  induction w generalizing s with
  | nil => rfl
  | cons a as ih =>
    simp only [scan, eat_map (hf s a) fun s' _ => hf s' a]
    cases h : eat step s a with
    | error x => rfl
    | ok s' => simp only [ih, Result.map_after]

/-- A map that commutes with single steps except where `E` holds: the two runs agree to the end,
or up to the first state and symbol for which `E` holds. -/
theorem scan_map_until {step' : τ → α → Move τ ε} {f : σ → τ} {E : σ → α → Prop}
    (hf : ∀ s a, ¬ E s a → step' (f s) a = (step s a).map f)
    (hback : ∀ s a s', step s a = .back s' → ¬ E s' a) (s : σ) (w : List α) :
    scan step' (f s) w = (scan step s w).map f ∨
      ∃ u a v q, w = u ++ a :: v ∧ scan step s u = .more q ∧
        scan step' (f s) u = .more (f q) ∧ E q a := by
  induction w generalizing s with
  | nil => exact .inl rfl
  | cons a as ih =>
    by_cases hE : E s a
    · exact .inr ⟨[], a, as, s, rfl, rfl, rfl, hE⟩
    · have heat := eat_map (hf s a hE) fun s' h => hf s' a (hback s a s' h)
      cases h : eat step s a with
      | error x => left; simp only [scan, heat, h]; rfl
      | ok s' =>
        rw [h] at heat
        rcases ih s' with hrun | ⟨u, b, v, q, rfl, hu, hu', hq⟩
        · left
          rw [scan_cons_ok as h, scan_cons_ok as heat, hrun, Result.map_after]
        · right
          refine ⟨a :: u, b, v, q, rfl, ?_, ?_, hq⟩
          · rw [scan_cons_ok u h, hu]; rfl
          · rw [scan_cons_ok u heat, hu']; rfl

/-! ## Reading a word before a continuation -/

/-- Before the continuation `u`, reading `w` takes the machine from `s` to `t`. -/
def Reads (step : σ → α → Move σ ε) (s : σ) (w : List α) (t : σ) (u : List α) : Prop :=
  scan step s (w ++ u) = (scan step t u).after w.length

theorem Reads.refl (s : σ) (u : List α) : Reads step s [] s u := by
  simp [Reads]

theorem Reads.trans {s t r : σ} {w w' u : List α} (h : Reads step s w t (w' ++ u))
    (h' : Reads step t w' r u) : Reads step s (w ++ w') r u := by
  simp only [Reads] at h h' ⊢
  rw [List.append_assoc, h, h', Result.after_after, List.length_append]

theorem Reads.single {s t : σ} {a : α} (h : eat step s a = .ok t) (u : List α) :
    Reads step s [a] t u := scan_cons_ok u h

theorem Reads.cons {s t r : σ} {a : α} {w u : List α} (h : eat step s a = .ok t)
    (h' : Reads step t w r u) : Reads step s (a :: w) r u :=
  (Reads.single h (w ++ u)).trans h'

theorem Reads.congr {s t : σ} {a : α} (h : eat step s a = eat step t a) (u : List α) :
    Reads step s [] t (a :: u) := by
  simp only [Reads, List.nil_append, List.length_nil, Result.after_zero]
  exact scan_cons_congr u h

end Machine

end Resumable
