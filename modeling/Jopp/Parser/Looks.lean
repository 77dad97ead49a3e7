import Jopp.Parser.Chunks

/-!
# Jopp.Parser.Looks

How often the loop of `parser::parse` runs. `loopHead cc w p k` is the position and the parser at
the head of the loop after `k` iterations, or `none` where the loop has ended before. The loop looks
at each byte twice at most: a byte is handed back to one of the two states after a value, and these
never hand a byte back (`looks_le`).

`parse_two_looks` holds of a parser in any state, also in one an error has left behind.
-/

namespace Jopp

open Resumable

variable {cc : CharConv} {w : Str}

/-- One iteration, from the head of the loop to the next one. -/
def nextHead (cc : CharConv) (inputSeq : Str) : Nat × Parser → Option (Nat × Parser)
  | (ptr, p) =>
    match inputSeq[ptr]? with
    | none => none
    | some chIn =>
      match pass cc p chIn with
      | .brk p => some (ptr + 1, p.count chIn)
      | .brkBack p => some (ptr + 1 - 1, p)
      | .ret _ _ | .undefined => none

def loopHead (cc : CharConv) (inputSeq : Str) (p : Parser) : Nat → Option (Nat × Parser)
  | 0 => some (0, p)
  | k + 1 => (loopHead cc inputSeq p k).bind (nextHead cc inputSeq)

/-- An iteration consumes a byte, or hands it back to a state that does not hand it back. -/
theorem nextHead_cases {ptr ptr' : Nat} {p p' : Parser}
    (h : nextHead cc w (ptr, p) = some (ptr', p')) :
    ptr < w.length ∧ (ptr' = ptr + 1 ∨ ptr' = ptr ∧
      ∀ r, nextHead cc w (ptr, p') ≠ some (ptr, r)) := by
  unfold nextHead at h
  cases hch : w[ptr]? with
  | none => simp [hch] at h
  | some ch =>
    obtain ⟨hlt, -⟩ := List.getElem?_eq_some_iff.mp hch
    refine ⟨hlt, ?_⟩
    cases hp : pass cc p ch with
    | brk q =>
      simp only [hch, hp, Option.some.injEq, Prod.mk.injEq] at h
      exact .inl h.1.symm
    | ret q ec => simp [hch, hp] at h
    | undefined => simp [hch, hp] at h
    | brkBack q =>
      simp only [hch, hp, Option.some.injEq, Prod.mk.injEq] at h
      obtain ⟨rfl, rfl⟩ := h
      refine .inr ⟨rfl, fun r hr => ?_⟩
      simp only [nextHead, hch] at hr
      cases hp' : pass cc q ch with
      | brk q' => simp [hp'] at hr
      | ret q' ec => simp [hp'] at hr
      | undefined => simp [hp'] at hr
      | brkBack q' => exact pass_after_ne_back (pass_back_state hp) q' hp'

theorem parseLoop_next {ptr ptr' : Nat} {p p' : Parser}
    (h : nextHead cc w (ptr, p) = some (ptr', p')) (fuel : Nat) :
    parseLoop cc w (fuel + 1) ptr p = parseLoop cc w fuel ptr' p' := by
  unfold nextHead at h
  cases hch : w[ptr]? with
  | none => simp [hch] at h
  | some ch =>
    cases hp : pass cc p ch with
    | ret q ec => simp [hch, hp] at h
    | undefined => simp [hch, hp] at h
    | brk q | brkBack q =>
      simp only [hch, hp, Option.some.injEq, Prod.mk.injEq] at h
      obtain ⟨rfl, rfl⟩ := h
      simp [parseLoop, hch, hp]

/-- After `k` iterations the loop stands at a byte seen once at most, or handed back to a state
that will not hand it back again. -/
theorem looks_le (cc : CharConv) (w : Str) (p : Parser) :
    ∀ (k : Nat) {ptr : Nat} {q : Parser}, loopHead cc w p k = some (ptr, q) →
      k ≤ 2 * ptr ∧ ptr ≤ w.length ∨
        k ≤ 2 * ptr + 1 ∧ ptr < w.length ∧ ∀ r, nextHead cc w (ptr, q) ≠ some (ptr, r) := by
  intro k
  induction k with
  | zero =>
    intro ptr q h
    cases h
    exact .inl ⟨Nat.zero_le _, Nat.zero_le _⟩
  | succ k ih =>
    intro ptr q h
    obtain ⟨⟨ptr₀, q₀⟩, h₀, hnext⟩ := Option.bind_eq_some_iff.mp h
    obtain ⟨hlt, rfl | ⟨rfl, hback⟩⟩ := nextHead_cases hnext
    · rcases ih h₀ with ⟨hk, -⟩ | ⟨hk, -, -⟩ <;> exact .inl ⟨by omega, by omega⟩
    · rcases ih h₀ with ⟨hk, -⟩ | ⟨-, -, hno⟩
      · exact .inr ⟨by omega, hlt, hback⟩
      · exact absurd hnext (hno q)

theorem parse_from_head (cc : CharConv) (w : Str) (p : Parser) :
    ∀ (k : Nat) {ptr : Nat} {q : Parser}, loopHead cc w p k = some (ptr, q) →
      parse cc p w = parseLoop cc w (2 * w.length + 1 - k) ptr q := by
  intro k
  induction k with
  | zero =>
    intro ptr q h
    cases h
    rfl
  | succ k ih =>
    intro ptr q h
    obtain ⟨⟨ptr₀, q₀⟩, h₀, hnext⟩ := Option.bind_eq_some_iff.mp h
    have hk : k < 2 * w.length := by
      have hlt := (nextHead_cases hnext).1
      rcases looks_le cc w p k h₀ with ⟨hk, -⟩ | ⟨hk, -, -⟩ <;> omega
    rw [ih h₀, ← parseLoop_next hnext]
    congr 1
    omega

theorem parse_progress {p q : Parser} {res : ParseResult}
    (h : parse cc p w = .returned res q) : res.ptr ≤ w.length ∧ (0 < w.length → 0 < res.ptr) := by
  rcases returned_cases h with ⟨-, rfl⟩ | ⟨hstop, -⟩
  · exact ⟨Nat.le_refl _, id⟩
  · obtain ⟨u, ch, v, -, hw, hptr, -, -⟩ := scan_stopped hstop
    rw [hw, hptr, List.length_append, List.length_cons]
    exact ⟨by omega, fun _ => Nat.succ_pos _⟩

/-- **Two looks per byte.** From any state, on `n` bytes: the loop has come to its end within
`2 * n + 1` iterations, the iterator stays within the input and moves on by one or not at all, it
never stays twice in a row, and a call on some bytes consumes one. -/
theorem parse_two_looks (cc : CharConv) (p : Parser) (w : Str) :
    (∀ k, (loopHead cc w p k).isSome = true → k + 1 ≤ 2 * w.length + 1) ∧
    (∀ k ptr q, loopHead cc w p k = some (ptr, q) → ptr ≤ w.length ∧
      parse cc p w = parseLoop cc w (2 * w.length + 1 - k) ptr q) ∧
    (∀ k i j q r, loopHead cc w p k = some (i, q) → loopHead cc w p (k + 1) = some (j, r) →
      i < w.length ∧ (j = i + 1 ∨ j = i ∧ ∀ l t, loopHead cc w p (k + 2) = some (l, t) →
        l = i + 1)) ∧
    parse cc p w ≠ .outOfFuel ∧
    (∀ res q, parse cc p w = .returned res q →
      res.ptr ≤ w.length ∧ (0 < w.length → 0 < res.ptr)) := by
  refine ⟨fun k hk => ?_, fun k ptr q h => ⟨?_, parse_from_head cc w p k h⟩, ?_,
    parse_ne_outOfFuel cc p w, fun res q => parse_progress⟩
  · obtain ⟨⟨ptr, q⟩, h⟩ := Option.isSome_iff_exists.mp hk
    rcases looks_le cc w p k h with ⟨hk, hle⟩ | ⟨hk, hlt, -⟩ <;> omega
  · rcases looks_le cc w p k h with ⟨-, hle⟩ | ⟨-, hlt, -⟩
    · exact hle
    · exact Nat.le_of_lt hlt
  · intro k i j q r hi hj
    have hnext : nextHead cc w (i, q) = some (j, r) := by
      have hj' := hj
      rw [loopHead, hi] at hj'
      exact hj'
    obtain ⟨hlt, hone | ⟨rfl, hback⟩⟩ := nextHead_cases hnext
    · exact ⟨hlt, .inl hone⟩
    · refine ⟨hlt, .inr ⟨rfl, fun l t hl => ?_⟩⟩
      rw [loopHead, hj] at hl
      obtain ⟨-, hone | ⟨rfl, -⟩⟩ := nextHead_cases hl
      · exact hone
      · exact absurd hl (hback t)

end Jopp
