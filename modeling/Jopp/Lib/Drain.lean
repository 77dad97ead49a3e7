import Mathlib.Algebra.GroupWithZero.Nat
import Mathlib.Data.List.Basic
import Mathlib.Tactic.Common

/-!
# Jopp.Lib.Drain

Writing a queue of tokens through buffers of bounded size. What is still pending of the current
token goes first, then the queue of the tokens after it; a `none` in the queue is a token that
cannot be produced. One `flush` fills one buffer: it takes the next token as soon as nothing is
pending, fails at a `none`, and is `done` once something of the last token went out, whether or
not the buffer had room for all of it.

* `text`: all that is written before the first `none`. `salvage`: what is written where one goes
  on behind it.
* `decisive`: the position in the text of the last token, or of the first `none`.
* `flush_cases`: one buffer. `drive_cases`: a sequence of buffers. What has been written is always
  a prefix of `text`; how long a prefix, and with which verdict, depends on the running sum of the
  sizes only.
* `drive_settles`: buffers that are not empty come to an end.
-/

namespace Drain

variable {β : Type*}

abbrev Queue (β : Type*) := List (Option (List β))

/-- How one buffer ends, with what was written to it; a full one leaves work to do. -/
inductive Flushed (β : Type*) where
  | full (written pending : List β) (queue : Queue β)
  | done (written : List β)
  | failed (written : List β)

inductive Verdict where
  | full
  | done
  | failed
deriving DecidableEq

def Flushed.prepend (w : List β) : Flushed β → Flushed β
  | full w' pending queue => full (w ++ w') pending queue
  | done w' => done (w ++ w')
  | failed w' => failed (w ++ w')

def flush (cap : Nat) (pending : List β) : Queue β → Flushed β
  | [] => if cap = 0 then .full [] pending [] else .done (pending.take cap)
  | tok :: queue =>
    if cap = 0 then .full [] pending (tok :: queue)
    else if cap < pending.length then .full (pending.take cap) (pending.drop cap) (tok :: queue)
    else
      match tok with
      | none => .failed pending
      | some t => (flush (cap - pending.length) t queue).prepend pending

/-- Fill one buffer after another, up to the first flush that does not end with a full one. -/
def drive (pending : List β) (queue : Queue β) : List Nat → List β × Verdict
  | [] => ([], .full)
  | cap :: caps =>
    match flush cap pending queue with
    | .full w pending' queue' =>
      let rest := drive pending' queue' caps
      (w ++ rest.1, rest.2)
    | .done w => (w, .done)
    | .failed w => (w, .failed)

def queueText : Queue β → List β
  | [] => []
  | none :: _ => []
  | some t :: queue => t ++ queueText queue

def text (pending : List β) (queue : Queue β) : List β := pending ++ queueText queue

/-- What is left of the queue where every `none` is passed over. -/
def salvage : Queue β → List β
  | [] => []
  | none :: queue => salvage queue
  | some t :: queue => t ++ salvage queue

/-- Where in the text the last token starts, or the first token that cannot be produced. -/
def decisive (pending : List β) : Queue β → Nat
  | [] => 0
  | none :: _ => pending.length
  | some t :: queue => pending.length + decisive t queue

theorem text_some (pending t : List β) (queue : Queue β) :
    text pending (some t :: queue) = pending ++ text t queue := rfl

theorem text_none (pending : List β) (queue : Queue β) : text pending (none :: queue) = pending :=
  List.append_nil pending

theorem salvage_append (q q' : Queue β) : salvage (q ++ q') = salvage q ++ salvage q' := by
  induction q with
  | nil => rfl
  | cons tok q ih =>
    cases tok with
    | none => exact ih
    | some t =>
      show t ++ salvage (q ++ q') = t ++ salvage q ++ salvage q'
      rw [ih, List.append_assoc]

theorem salvage_eq {queue : Queue β} (h : none ∉ queue) : salvage queue = queueText queue := by
  induction queue with
  | nil => rfl
  | cons tok queue ih =>
    cases tok with
    | none => exact absurd (List.mem_cons_self ..) h
    | some t => exact congrArg (t ++ ·) (ih fun hn => h (List.mem_cons_of_mem _ hn))

theorem queueText_append : ∀ {q : Queue β}, none ∉ q → ∀ q' : Queue β,
    queueText (q ++ q') = queueText q ++ queueText q'
  | [], _, _ => rfl
  | none :: _, h, _ => absurd (List.mem_cons_self ..) h
  | some t :: q, h, q' => by
    have hq : none ∉ q := fun hn => h (List.mem_cons_of_mem _ hn)
    show t ++ queueText (q ++ q') = t ++ queueText q ++ queueText q'
    rw [queueText_append hq q', List.append_assoc]

theorem decisive_concat : ∀ {q : Queue β} (pending t : List β), none ∉ q →
    decisive pending (q ++ [some t]) = (text pending q).length := by
  intro q
  induction q with
  | nil =>
    intro pending t _
    simp [decisive, text, queueText]
  | cons tok q ih =>
    intro pending t h
    cases tok with
    | none => exact absurd (List.mem_cons_self ..) h
    | some t' =>
      have hq : none ∉ q := fun hn => h (List.mem_cons_of_mem _ hn)
      rw [text_some, List.length_append, ← ih t' t hq]
      rfl

theorem decisive_le (pending : List β) (queue : Queue β) :
    decisive pending queue ≤ (text pending queue).length := by
  induction queue generalizing pending with
  | nil => exact Nat.zero_le _
  | cons tok queue ih =>
    cases tok with
    | none =>
      rw [text_none]
      exact Nat.le_refl _
    | some t =>
      rw [text_some, List.length_append]
      exact Nat.add_le_add_left (ih t) _

/-! ## One buffer -/

/-- A buffer is filled if it ends before the decisive token, and no further. -/
theorem flush_cases (cap : Nat) (pending : List β) (queue : Queue β) :
    (∃ pending' queue', flush cap pending queue =
        .full ((text pending queue).take cap) pending' queue' ∧
      text pending' queue' = (text pending queue).drop cap ∧
      decisive pending' queue' = decisive pending queue - cap ∧
      (none ∈ queue' ↔ none ∈ queue) ∧ cap ≤ decisive pending queue) ∨
    (none ∉ queue ∧ decisive pending queue < cap ∧
      flush cap pending queue = .done ((text pending queue).take cap)) ∨
    (none ∈ queue ∧ decisive pending queue ≤ cap ∧
      flush cap pending queue = .failed (text pending queue)) := by
  induction queue generalizing cap pending with
  | nil =>
    by_cases h₀ : cap = 0
    · subst h₀
      exact .inl ⟨pending, [], by simp [flush], by simp, rfl, Iff.rfl, Nat.le_refl 0⟩
    · refine .inr (.inl ⟨List.not_mem_nil, Nat.pos_of_ne_zero h₀, ?_⟩)
      simp [flush, h₀, text, queueText]
  | cons tok queue ih =>
    by_cases h₀ : cap = 0
    · subst h₀
      exact .inl ⟨pending, tok :: queue, by simp [flush], by simp, rfl, Iff.rfl, Nat.zero_le _⟩
    by_cases h₁ : cap < pending.length
    · -- the buffer ends inside the pending token
      have hle : cap ≤ pending.length := by omega
      refine .inl ⟨pending.drop cap, tok :: queue, ?_, ?_, ?_, Iff.rfl, ?_⟩
      · simp [flush, h₀, h₁, text, List.take_append_of_le_length hle]
      · simp [text, List.drop_append_of_le_length hle]
      · cases tok with
        | none => exact List.length_drop
        | some t =>
          show (pending.drop cap).length + _ = pending.length + _ - cap
          rw [List.length_drop]
          omega
      · cases tok with
        | none => exact hle
        | some t =>
          show cap ≤ pending.length + _
          omega
    · cases tok with
      | none =>
        refine .inr (.inr ⟨List.mem_cons_self .., by simp only [decisive]; omega, ?_⟩)
        simp [flush, h₀, h₁, text_none]
      | some t =>
        have hflush : flush cap pending (some t :: queue) =
            (flush (cap - pending.length) t queue).prepend pending := by
          simp [flush, h₀, h₁]
        have htake : (text pending (some t :: queue)).take cap =
            pending ++ (text t queue).take (cap - pending.length) := by
          rw [text_some, List.take_append, List.take_of_length_le (by omega)]
        have hmem : none ∈ some t :: queue ↔ none ∈ queue := by simp
        rw [hflush, htake, hmem]
        simp only [decisive]
        rcases ih (cap - pending.length) t with
          ⟨p', q', hfull, htext, hdec, hnone, hle⟩ | ⟨hnone, hlt, hdone⟩ | ⟨hnone, hle, hfail⟩
        · refine .inl ⟨p', q', by rw [hfull]; rfl, ?_, by omega, hnone, by omega⟩
          have hdrop : pending.drop cap = [] := List.drop_eq_nil_of_le (by omega)
          rw [htext, text_some, List.drop_append, hdrop, List.nil_append]
        · exact .inr (.inl ⟨hnone, by omega, by rw [hdone]; rfl⟩)
        · exact .inr (.inr ⟨hnone, by omega, by rw [hfail]; rfl⟩)

/-! ## A sequence of buffers -/

/-- After the first `k` buffers the decisive token has been reached, and not earlier. -/
def Reached (d : Nat) (caps : List Nat) (k : Nat) : Prop :=
  d < (caps.take k).sum ∧ ∀ j, j < k → (caps.take j).sum ≤ d

theorem Reached.le_length {d : Nat} {caps : List Nat} {k : Nat} (h : Reached d caps k) :
    k ≤ caps.length := by
  by_contra hk
  have hall := h.2 caps.length (by omega)
  have hlt := h.1
  rw [List.take_length] at hall
  rw [List.take_of_length_le (by omega)] at hlt
  omega

theorem drive_cases (pending : List β) (queue : Queue β) (caps : List Nat) :
    (drive pending queue caps = ((text pending queue).take caps.sum, .full) ∧
      caps.sum ≤ decisive pending queue) ∨
    (none ∉ queue ∧ ∃ k, Reached (decisive pending queue) caps k ∧
      drive pending queue caps = ((text pending queue).take (caps.take k).sum, .done)) ∨
    (none ∈ queue ∧ drive pending queue caps = (text pending queue, .failed)) := by
  induction caps generalizing pending queue with
  | nil => exact .inl ⟨by simp [drive], Nat.zero_le _⟩
  | cons cap caps ih =>
    rcases flush_cases cap pending queue with
      ⟨p', q', hfull, htext, hdec, hnone, hle⟩ | ⟨hnone, hlt, hdone⟩ | ⟨hnone, -, hfail⟩
    · have hdrive : drive pending queue (cap :: caps) =
          ((text pending queue).take cap ++ (drive p' q' caps).1, (drive p' q' caps).2) := by
        simp only [drive, hfull]
      rw [hdrive]
      rcases ih p' q' with ⟨hrest, hsum⟩ | ⟨hno, k, ⟨hlt, hmin⟩, hrest⟩ | ⟨hyes, hrest⟩
      · refine .inl ⟨?_, by rw [List.sum_cons]; omega⟩
        rw [hrest, htext, List.sum_cons, List.take_add]
      · refine .inr (.inl ⟨fun h => hno (hnone.mpr h), k + 1, ⟨?_, fun j hj => ?_⟩, ?_⟩)
        · rw [List.take_succ_cons, List.sum_cons]
          omega
        · cases j with
          | zero => exact Nat.zero_le _
          | succ j =>
            have := hmin j (by omega)
            rw [List.take_succ_cons, List.sum_cons]
            omega
        · rw [hrest, htext, List.take_succ_cons, List.sum_cons, List.take_add]
      · refine .inr (.inr ⟨hnone.mp hyes, ?_⟩)
        rw [hrest, htext, List.take_append_drop]
    · refine .inr (.inl ⟨hnone, 1, ⟨by simpa using hlt, fun j hj => ?_⟩, ?_⟩)
      · obtain rfl : j = 0 := by omega
        exact Nat.zero_le _
      · simp [drive, hdone]
    · exact .inr (.inr ⟨hnone, by simp only [drive, hfail]⟩)

/-- Where the buffers have room for more than what precedes the decisive token, the work ends. -/
theorem drive_settles (pending : List β) (queue : Queue β) (caps : List Nat)
    (h : decisive pending queue < caps.sum) :
    (none ∉ queue ∧ ∃ k, Reached (decisive pending queue) caps k ∧
      drive pending queue caps = ((text pending queue).take (caps.take k).sum, .done)) ∨
    (none ∈ queue ∧ drive pending queue caps = (text pending queue, .failed)) := by
  rcases drive_cases pending queue caps with ⟨-, hle⟩ | hdone | hfail
  · omega
  · exact .inl hdone
  · exact .inr hfail

end Drain
