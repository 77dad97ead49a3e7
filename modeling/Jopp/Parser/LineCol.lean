import Jopp.Parser.Chunks

/-!
# Jopp.Parser.LineCol

The position a result carries. `lineAfter` and `colAfter` are line and column of the byte behind a
text; the parser's counters have these values (`Parser.At`) behind every text it has consumed, since
a pass never touches them and the bottom of the loop counts a byte once, when it is consumed.

A call that asks for more data reports the position of the next byte, any other call that of the
last byte it consumed (`position_exact`).
-/

namespace Jopp

open Resumable

def lineAfter (w : Str) : Nat := 1 + w.count newline

/-- The column of the byte behind `w`: one more than the number of bytes since the last newline. -/
def colAfter (w : Str) : Nat := 1 + (w.reverse.takeWhile (· != newline)).length

theorem lineAfter_concat (w : Str) (ch : Byte) :
    lineAfter (w ++ [ch]) = if ch = newline then lineAfter w + 1 else lineAfter w := by
  unfold lineAfter
  rw [List.count_append, List.count_singleton]
  by_cases hch : ch = newline
  · simp [hch]
    omega
  · simp [hch]

theorem colAfter_concat (w : Str) (ch : Byte) :
    colAfter (w ++ [ch]) = if ch = newline then 1 else colAfter w + 1 := by
  unfold colAfter
  rw [List.reverse_concat]
  by_cases hch : ch = newline
  · subst hch
    simp
  · simp [hch]
    omega

/-- The counters are those of the byte behind `w`. -/
def Parser.At (w : Str) (p : Parser) : Prop := p.line = lineAfter w ∧ p.col = colAfter w

theorem at_init (root : Container) (maxLevels : Option Nat) :
    (Parser.init root maxLevels).At [] := ⟨rfl, rfl⟩

theorem at_count {p : Parser} {w : Str} (h : p.At w) (ch : Byte) :
    (p.count ch).At (w ++ [ch]) := by
  unfold Parser.At Parser.count
  rw [lineAfter_concat, colAfter_concat]
  split <;> simp [h.1, h.2]

theorem at_pass {cc : CharConv} {p : Parser} {w : Str} {ch : Byte} {flow : Flow} (h : p.At w)
    (hp : pass cc p ch = flow) : flow.Sat (Parser.At w) (fun q _ => q.At w) p := by
  have hb := pass_branch cc p ch
  rw [hp] at hb
  cases hb <;> exact h

theorem at_next {cc : CharConv} (p : Parser) (ch : Byte) (w : Str) (q : Parser) (h : p.At w)
    (hstep : step cc p ch = .next q) : q.At (w ++ [ch]) := by
  obtain ⟨r, hpass, rfl⟩ := toMove_eq_next hstep
  exact at_count (at_pass h hpass) ch

theorem at_back {cc : CharConv} (p : Parser) (ch : Byte) (w : Str) (q : Parser) (h : p.At w)
    (hstep : step cc p ch = .back q) : q.At w :=
  at_pass h (toMove_eq_back hstep)

/-- Where a call returns from within its input, the last byte has not been counted. -/
theorem at_stop {cc : CharConv} (p : Parser) (ch : Byte) (w : Str) (q : Parser) (e : Stop)
    (h : p.At w) (hstep : step cc p ch = .stop q e) : e ≠ none → q.At w := by
  intro he
  obtain ⟨ec, rfl⟩ := Option.ne_none_iff_exists'.mp he
  exact at_pass h (toMove_eq_stop hstep)

/-- **Reported positions.** As long as data is missing the position is that of the next byte, and
at the end of the run that of the last byte consumed, newlines being counted over all chunks. -/
theorem position_exact (cc : CharConv) (root : Container) (maxLevels : Option Nat)
    (chunks : List Str) (res : ParseResult) (q : Parser)
    (h : parseChunks cc (Parser.init root maxLevels) chunks = .returned res q) :
    (res.ec = .moreDataNeeded → res.ptr = chunks.flatten.length ∧
      res.line = lineAfter chunks.flatten ∧ res.col = colAfter chunks.flatten) ∧
    (res.ec ≠ .moreDataNeeded → ∃ u ch v, chunks.flatten = u ++ ch :: v ∧
      res.ptr = u.length + 1 ∧ res.line = lineAfter u ∧ res.col = colAfter u) := by
  rw [parseChunks_eq_parse] at h
  rcases returned_cases h with ⟨hmore, rfl⟩ | ⟨hstop, hne, hline, hcol⟩
  · have hat := scan_foldl_inv (step_settles cc) at_next at_back (at_init root maxLevels) hmore
    rw [foldl_concat] at hat
    exact ⟨fun _ => ⟨rfl, hat.1, hat.2⟩, fun hec => absurd rfl hec⟩
  · refine ⟨fun hec => absurd hec hne, fun _ => ?_⟩
    obtain ⟨u, ch, v, hw, hptr, hat⟩ := scan_foldl_stop (step_settles cc) at_next at_back at_stop
      (at_init root maxLevels) hstop
    rw [foldl_concat] at hat
    obtain ⟨hl, hc⟩ := hat (by simp)
    exact ⟨u, ch, v, hw, hptr, hline.trans hl, hcol.trans hc⟩

/-- In `[1` and a newline, then `]`: the newline ends the literal and is counted once. -/
theorem position_exact_newline :
    ∃ u ch v, [0x5b, 0x31, 0x0a, 0x5d] = u ++ ch :: v ∧ 4 = u.length + 1 ∧ 2 = lineAfter u ∧
      1 = colAfter u :=
  (position_exact .binary .empty none [[0x5b, 0x31], [0x0a, 0x5d]] ⟨4, .completed, 2, 1⟩ _ rfl).2
    (by decide)

end Jopp
