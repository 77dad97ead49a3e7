import Jopp.Parser.Scan

/-!
# Jopp.Parser.Chunks

The parser does not see chunk borders: feeding chunks gives the outcome, the position and the
state that one call on their concatenation gives (`parse_chunks`). A call that asks for more data
has used up its chunk, a result does not depend on what follows the consumed bytes, and the root
container changes in the completing call only.
-/

namespace Jopp

open Resumable

theorem parseChunks_eq_parse (cc : CharConv) (p : Parser) (chunks : List Str) :
    parseChunks cc p chunks = parse cc p chunks.flatten := by
  rw [parseChunks_eq_scan, parse_eq_scan]

/-- The root is written at the `return` with `completed` and nowhere else. -/
theorem scan_root (cc : CharConv) (p : Parser) (w : Str) :
    (scan (step cc) p w).Sat (fun q => q.root = p.root)
      (fun q e => e ≠ some .completed → q.root = p.root) := by
  refine scan_branch_inv (I := fun q => q.root = p.root) (fun q ch hq => by simpa using hq)
    (fun q ch flow hq hb => ?_) rfl w
  cases hb <;> simp [Flow.Sat, hq]

theorem returned_cases {cc : CharConv} {p q : Parser} {w : Str} {res : ParseResult}
    (h : parse cc p w = .returned res q) :
    (scan (step cc) p w = .more q ∧ res = ⟨w.length, .moreDataNeeded, q.line, q.col⟩) ∨
    (scan (step cc) p w = .stopped q (some res.ec) res.ptr ∧ res.ec ≠ .moreDataNeeded ∧
      res.line = q.line ∧ res.col = q.col) := by
  rw [parse_eq_scan] at h
  cases hr : scan (step cc) p w with
  | more q' =>
    rw [hr] at h
    cases h
    exact .inl ⟨rfl, rfl⟩
  | stopped q' e n =>
    cases e with
    | none => rw [hr] at h; cases h
    | some ec =>
      rw [hr] at h
      cases h
      exact .inr ⟨rfl, scan_stop_ne_more hr, rfl, rfl⟩

theorem stopped_of_completed {cc : CharConv} {p q : Parser} {w : Str} {res : ParseResult}
    (h : parse cc p w = .returned res q) (hec : res.ec = .completed) :
    scan (step cc) p w = .stopped q (some .completed) res.ptr := by
  rcases returned_cases h with ⟨-, hres⟩ | ⟨hstop, -⟩
  · rw [hres] at hec
    cases hec
  · rw [hstop, hec]

theorem parse_of_more {cc : CharConv} {p q : Parser} {w : Str}
    (h : scan (step cc) p w = .more q) :
    parse cc p w = .returned ⟨w.length, .moreDataNeeded, q.line, q.col⟩ q := by
  rw [parse_eq_scan, h]; rfl

theorem parse_of_stopped {cc : CharConv} {p q : Parser} {w : Str} {ec : ParserErrorCode} {n : Nat}
    (h : scan (step cc) p w = .stopped q (some ec) n) :
    parse cc p w = .returned ⟨n, ec, q.line, q.col⟩ q := by
  rw [parse_eq_scan, h]; rfl

/-- **Chunk independence.** The sequence of calls and the single call have the same outcome,
undefined behaviour included. -/
theorem parse_chunks (cc : CharConv) (p : Parser) (chunks : List Str) :
    parseChunks cc p chunks = parse cc p chunks.flatten ∧
      ∀ res q, parse cc p chunks.flatten = .returned res q →
        (res.ec = .moreDataNeeded → res.ptr = chunks.flatten.length) ∧
        (res.ec ≠ .moreDataNeeded → ∀ tail,
          parse cc p (chunks.flatten.take res.ptr ++ tail) = .returned res q) ∧
        (res.ec ≠ .completed → q.root = p.root) := by
  refine ⟨parseChunks_eq_parse cc p chunks, fun res q h => ?_⟩
  have hroot := scan_root cc p chunks.flatten
  rcases returned_cases h with ⟨hm, hres⟩ | ⟨hs, hne, -, -⟩
  · rw [hm] at hroot
    subst hres
    exact ⟨fun _ => rfl, fun hne => absurd rfl hne, fun _ => hroot⟩
  · rw [hs] at hroot
    refine ⟨fun he => absurd he hne, fun _ tail => ?_, fun hc => hroot fun he => hc ?_⟩
    · rw [parse_of_stopped (scan_stopped_take hs tail).2, ← parse_of_stopped hs, h]
    · exact Option.some.inj he

end Jopp
