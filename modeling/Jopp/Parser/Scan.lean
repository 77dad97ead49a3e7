import Jopp.Parser.Pass
import Jopp.Lib.Resumable

/-!
# Jopp.Parser.Scan

The parser as a resumable machine. `step` is one pass of the loop with the position update;
`parse` and `parseChunks` are `Resumable.scan` of it over the input (`parse_eq_scan`,
`parseChunks_eq_scan`), since no byte is handed back twice in a row (`step_settles`).

`coreStep` leaves line and column alone. Neither of the two influences anything else
(`scan_core`), so what the parser does with an input can be studied on `coreStep`.
-/

namespace Jopp

open Resumable

/-- The error code of a `return`, or `none` for undefined behaviour. -/
abbrev Stop := Option ParserErrorCode

def Flow.toMove (p : Parser) (count : Parser → Parser) : Flow → Move Parser Stop
  | .brk p' => .next (count p')
  | .brkBack p' => .back p'
  | .ret p' ec => .stop p' (some ec)
  | .undefined => .stop p none

theorem toMove_eq_next {p q : Parser} {count : Parser → Parser} {flow : Flow}
    (h : flow.toMove p count = .next q) : ∃ r, flow = .brk r ∧ q = count r := by
  cases flow with
  | brk r => cases h; exact ⟨r, rfl, rfl⟩
  | brkBack _ | ret _ _ | undefined => cases h

theorem toMove_eq_back {p q : Parser} {count : Parser → Parser} {flow : Flow}
    (h : flow.toMove p count = .back q) : flow = .brkBack q := by
  cases flow with
  | brkBack _ => cases h; rfl
  | brk _ | ret _ _ | undefined => cases h

theorem toMove_eq_stop {p q : Parser} {count : Parser → Parser} {flow : Flow}
    {ec : ParserErrorCode} (h : flow.toMove p count = .stop q (some ec)) : flow = .ret q ec := by
  cases flow with
  | ret _ _ => cases h; rfl
  | brk _ | brkBack _ | undefined => cases h

def step (cc : CharConv) (p : Parser) (ch : Byte) : Move Parser Stop :=
  (pass cc p ch).toMove p (·.count ch)

/-- `step` without the position update. -/
def coreStep (cc : CharConv) (p : Parser) (ch : Byte) : Move Parser Stop :=
  (pass cc p ch).toMove p id

/-! ## No byte is handed back twice in a row -/

theorem pass_back_state {cc : CharConv} {p p' : Parser} {ch : Byte}
    (h : pass cc p ch = .brkBack p') :
    p'.currentState = .afterValueObject ∨ p'.currentState = .afterValueArray := by
  have hb := pass_branch cc p ch
  rw [h] at hb
  cases hb with
  | endInValue => exact .inr rfl
  | endInBeforeKey => exact .inl rfl
  | literalBack hs hch hw hc hv hr =>
    rename_i top rest val
    rcases storeValue_kind top val with ⟨_, _, _, _, hn⟩ | ⟨_, _, _, _, hn⟩
    · exact .inl hn
    · exact .inr hn

theorem pass_after_ne_back {cc : CharConv} {p : Parser} {ch : Byte}
    (h : p.currentState = .afterValueObject ∨ p.currentState = .afterValueArray) (p' : Parser) :
    pass cc p ch ≠ .brkBack p' := by
  intro hp
  have hb := pass_branch cc p ch
  rw [hp] at hb
  cases hb <;> rename_i hs _ <;> simp_all

theorem toMove_settles (cc : CharConv) (count : Byte → Parser → Parser) :
    Settles fun p ch => (pass cc p ch).toMove p (count ch) := by
  intro p ch p' h p'' h'
  exact pass_after_ne_back (pass_back_state (toMove_eq_back h)) p'' (toMove_eq_back h')

theorem step_settles (cc : CharConv) : Settles (step cc) :=
  toMove_settles cc fun ch p => p.count ch

theorem coreStep_settles (cc : CharConv) : Settles (coreStep cc) :=
  toMove_settles cc fun _ p => p

/-! ## The loop -/

/-- What a call returns, given what the machine did on an input of `n` bytes. -/
def Outcome.ofResult (n : Nat) : Result Parser Stop → Outcome
  | .more p => .returned ⟨n, .moreDataNeeded, p.line, p.col⟩ p
  | .stopped p (some ec) k => .returned ⟨k, ec, p.line, p.col⟩ p
  | .stopped _ none _ => .undefined

theorem parseLoop_eq_loop (cc : CharConv) (w : Str) :
    ∀ (fuel ptr : Nat) (p : Parser), ptr ≤ w.length →
      parseLoop cc w fuel ptr p =
        match loop (step cc) fuel p (w.drop ptr) with
        | none => .outOfFuel
        | some r => .ofResult w.length (r.after ptr) := by
  intro fuel
  induction fuel with
  | zero => intro ptr p _; rfl
  | succ fuel ih =>
    intro ptr p hptr
    cases hd : w.drop ptr with
    | nil =>
      have hlen : ptr = w.length := by
        have := List.drop_eq_nil_iff.mp hd
        omega
      subst hlen
      simp [parseLoop, loop, Outcome.ofResult]
    | cons ch rest =>
      have hlt : ptr < w.length := by
        by_contra hge
        rw [List.drop_eq_nil_of_le (by omega)] at hd
        cases hd
      have hget : w[ptr]? = some ch := by
        rw [← List.head?_drop, hd]; rfl
      have hrest : w.drop (ptr + 1) = rest := by
        rw [← List.tail_drop, hd]; rfl
      simp only [parseLoop, hget, loop]
      cases hp : pass cc p ch with
      | undefined => simp [step, hp, Flow.toMove, Outcome.ofResult]
      | ret p' ec => simp [step, hp, Flow.toMove, Outcome.ofResult]
      | brk p' =>
        simp only [step, hp, Flow.toMove]
        rw [if_pos (by omega), ih (ptr + 1) _ (by omega), hrest]
        change _ = match (loop (step cc) fuel (p'.count ch) rest).map (·.after 1) with
          | none => Outcome.outOfFuel
          | some r => .ofResult w.length (r.after ptr)
        cases loop (step cc) fuel (p'.count ch) rest with
        | none => rfl
        | some r => simp
      | brkBack p' =>
        simp only [step, hp, Flow.toMove, Nat.add_sub_cancel]
        rw [if_neg (by omega), ih ptr p' hptr, hd]

/-- One call is one scan of its input; the fuel is enough. -/
theorem parse_eq_scan (cc : CharConv) (p : Parser) (w : Str) :
    parse cc p w = .ofResult w.length (scan (step cc) p w) := by
  rw [parse, parseLoop_eq_loop cc w _ 0 p (Nat.zero_le _), List.drop_zero,
    loop_eq_scan (step_settles cc) (Nat.lt_succ_self _)]
  simp

theorem parse_ne_outOfFuel (cc : CharConv) (p : Parser) (w : Str) :
    parse cc p w ≠ .outOfFuel := by
  rw [parse_eq_scan]
  rcases scan (step cc) p w with p' | ⟨p', _ | ec, n⟩ <;> simp [Outcome.ofResult]

theorem step_stop_ne_more {cc : CharConv} {p p' : Parser} {ch : Byte} {ec : ParserErrorCode}
    (h : step cc p ch = .stop p' (some ec)) : ec ≠ .moreDataNeeded := by
  have hb := pass_branch cc p ch
  simp only [step] at h
  cases hp : pass cc p ch with
  | brk q => rw [hp] at h; cases h
  | brkBack q => rw [hp] at h; cases h
  | undefined => rw [hp] at h; cases h
  | ret q ec' =>
    rw [hp] at h hb
    cases h
    cases hb <;> decide

theorem scan_stop_ne_more {cc : CharConv} {p p' : Parser} {w : Str} {ec : ParserErrorCode}
    {n : Nat} (h : scan (step cc) p w = .stopped p' (some ec) n) : ec ≠ .moreDataNeeded := by
  have hsat : (scan (step cc) p w).Sat (fun _ => True) (fun _ e => e ≠ some .moreDataNeeded) :=
    scan_inv_step (fun _ _ _ _ _ => trivial) (fun _ _ _ _ _ => trivial)
      (fun p ch p' e _ hstop (he : e = _) => step_stop_ne_more (he ▸ hstop) rfl) trivial w
  rw [h] at hsat
  exact fun hec => hsat (congrArg some hec)

theorem parseChunks_eq_scan (cc : CharConv) (p : Parser) (chunks : List Str) :
    parseChunks cc p chunks =
      .ofResult chunks.flatten.length (scan (step cc) p chunks.flatten) := by
  induction chunks generalizing p with
  | nil => rfl
  | cons chunk chunks ih =>
    rw [parseChunks, parse_eq_scan, List.flatten_cons, scan_append]
    cases hr : scan (step cc) p chunk with
    | more q =>
      simp only [Outcome.ofResult, if_true, ih, Result.andThen]
      rcases scan (step cc) q chunks.flatten with q' | ⟨q', _ | ec, n⟩ <;> simp
    | stopped q e n =>
      cases e with
      | none => rfl
      | some ec =>
        have := scan_stop_ne_more hr
        simp [Outcome.ofResult, Result.andThen, this]

/-! ## The invariant rule -/

@[simp] theorem Parser.count_currentState (p : Parser) (ch : Byte) :
    (p.count ch).currentState = p.currentState := by
  simp only [Parser.count]; split <;> rfl
@[simp] theorem Parser.count_maxLevels (p : Parser) (ch : Byte) :
    (p.count ch).maxLevels = p.maxLevels := by
  simp only [Parser.count]; split <;> rfl
@[simp] theorem Parser.count_contexts (p : Parser) (ch : Byte) :
    (p.count ch).contexts = p.contexts := by
  simp only [Parser.count]; split <;> rfl
@[simp] theorem Parser.count_buffer (p : Parser) (ch : Byte) :
    (p.count ch).buffer = p.buffer := by
  simp only [Parser.count]; split <;> rfl
@[simp] theorem Parser.count_root (p : Parser) (ch : Byte) : (p.count ch).root = p.root := by
  simp only [Parser.count]; split <;> rfl

/-- What a pass must establish: `I` where it goes on, `P` where it returns. -/
def Flow.Sat (I : Parser → Prop) (P : Parser → Stop → Prop) (p : Parser) : Flow → Prop
  | .brk q => I q
  | .brkBack q => I q
  | .ret q ec => P q (some ec)
  | .undefined => P p none

/-- An invariant that every branch keeps, and that does not speak of line and column, holds along
every run. -/
theorem scan_branch_inv {cc : CharConv} {I : Parser → Prop} {P : Parser → Stop → Prop}
    (hcount : ∀ p ch, I p → I (p.count ch))
    (hbranch : ∀ p ch flow, I p → Branch cc p ch flow → flow.Sat I P p) {p : Parser} (hp : I p)
    (w : Str) : (scan (step cc) p w).Sat I P := by
  have hpass : ∀ p ch, I p → (pass cc p ch).Sat I P p := fun p ch hp =>
    hbranch p ch _ hp (pass_branch cc p ch)
  refine scan_inv_step (fun p ch q hp h => ?_) (fun p ch q hp h => ?_)
    (fun p ch q e hp h => ?_) hp w <;>
  · have hsat := hpass p ch hp
    simp only [step] at h
    cases hf : pass cc p ch <;> rw [hf] at h hsat <;> cases h <;>
      first
        | exact hsat
        | exact hcount _ _ hsat

/-- What a pass must establish where `c` sums up the bytes read, `g` adding one to it: `I` where it
goes on, `P` where it returns. -/
def Flow.SatRead {γ : Type} (g : γ → Byte → γ) (I : Parser → γ → Prop)
    (P : Parser → Stop → γ → Byte → Prop) (p : Parser) (c : γ) (ch : Byte) : Flow → Prop
  | .brk q => I q (g c ch)
  | .brkBack q => I q c
  | .ret q ec => P q (some ec) c ch
  | .undefined => P p none c ch

/-- The same for an invariant that also speaks of the bytes read. -/
theorem scan_branch_foldl {cc : CharConv} {γ : Type} {g : γ → Byte → γ} {I : Parser → γ → Prop}
    {P : Parser → Stop → γ → Byte → Prop} (hcount : ∀ p c ch, I p c → I (p.count ch) c)
    (hbranch : ∀ p c ch flow, I p c → Branch cc p ch flow → flow.SatRead g I P p c ch)
    {p : Parser} {c : γ} (hp : I p c) (w : Str) :
    (∀ q, scan (step cc) p w = .more q → I q (w.foldl g c)) ∧
    (∀ q e n, scan (step cc) p w = .stopped q e n →
      ∃ u ch v, w = u ++ ch :: v ∧ n = u.length + 1 ∧ P q e (u.foldl g c) ch) := by
  have hpass : ∀ p c ch, I p c → (pass cc p ch).SatRead g I P p c ch := fun p c ch hp =>
    hbranch p c ch _ hp (pass_branch cc p ch)
  have hnext : ∀ p ch c q, I p c → step cc p ch = .next q → I q (g c ch) := by
    intro p ch c q hp h
    obtain ⟨r, hr, rfl⟩ := toMove_eq_next h
    have hsat := hpass p c ch hp
    rw [hr] at hsat
    exact hcount _ _ _ hsat
  have hback : ∀ p ch c q, I p c → step cc p ch = .back q → I q c := by
    intro p ch c q hp h
    have hsat := hpass p c ch hp
    rwa [toMove_eq_back h] at hsat
  have hstop : ∀ p ch c q e, I p c → step cc p ch = .stop q e → P q e c ch := by
    intro p ch c q e hp h
    have hsat := hpass p c ch hp
    simp only [step] at h
    cases hf : pass cc p ch <;> rw [hf] at h hsat <;> cases h <;> exact hsat
  exact ⟨fun q h => scan_foldl_inv (step_settles cc) hnext hback hp h,
    fun q e n h => scan_foldl_stop (step_settles cc) hnext hback hstop hp h⟩

/-! ## Line, column and limit -/

/-- The parser with line, column and depth limit rewritten. -/
def Parser.retag (l c : Nat → Nat) (m : Option Nat → Option Nat) (p : Parser) : Parser :=
  { p with line := l p.line, col := c p.col, maxLevels := m p.maxLevels }

def Flow.map (f : Parser → Parser) : Flow → Flow
  | .brk p => .brk (f p)
  | .brkBack p => .brkBack (f p)
  | .ret p ec => .ret (f p) ec
  | .undefined => .undefined

/-- Line and column do not influence what a pass does, nor does the limit, as long as the check
for it comes out the same. -/
theorem pass_retag {cc : CharConv} {p : Parser} {ch : Byte} {l c : Nat → Nat}
    {m : Option Nat → Option Nat}
    (h : p.currentState = .value → ch = Delimiters.beginArray ∨ ch = Delimiters.beginObject →
      (p.retag l c m).tooDeep = p.tooDeep) :
    pass cc (p.retag l c m) ch = (pass cc p ch).map (Parser.retag l c m) := by
  obtain ⟨line, col, state, maxLevels, contexts, buffer, root⟩ := p
  cases state <;> simp only [pass, Parser.retag] at h ⊢
  case value =>
    simp only [onValue, apply_ite (Flow.map (Parser.retag l c m))]
    by_cases h₁ : ch = Delimiters.beginArray
    · rw [if_pos h₁, if_pos h₁, h trivial (.inl h₁)]; rfl
    rw [if_neg h₁, if_neg h₁]
    by_cases h₂ : ch = Delimiters.beginObject
    · rw [if_pos h₂, if_pos h₂, h trivial (.inr h₂)]; rfl
    rw [if_neg h₂, if_neg h₂]; rfl
  case literal =>
    cases contexts with
    | nil => simp only [onLiteral, apply_ite (Flow.map (Parser.retag l c m))]; rfl
    | cons top rest => simp only [onLiteral, apply_ite (Flow.map (Parser.retag l c m))]; rfl
  case stringValue =>
    cases contexts with
    | nil =>
      simp only [onStringValue, onQuoted, closeStringValue,
        apply_ite (Flow.map (Parser.retag l c m))]; rfl
    | cons top rest =>
      simp only [onStringValue, onQuoted, closeStringValue,
        apply_ite (Flow.map (Parser.retag l c m))]; rfl
  case stringValueEscSeq =>
    simp only [onStringValueEscSeq, onEscSeq]
    cases unescape ch <;> rfl
  case beforeKey =>
    simp only [onBeforeKey, apply_ite (Flow.map (Parser.retag l c m))]; rfl
  case key =>
    cases contexts with
    | nil => simp only [onKey, onQuoted, closeKey, apply_ite (Flow.map (Parser.retag l c m))]; rfl
    | cons top rest =>
      simp only [onKey, onQuoted, closeKey, apply_ite (Flow.map (Parser.retag l c m))]; rfl
  case keyEscSeq =>
    simp only [onKeyEscSeq, onEscSeq]
    cases unescape ch <;> rfl
  case beforeValue =>
    simp only [onBeforeValue, apply_ite (Flow.map (Parser.retag l c m))]; rfl
  case afterValueObject =>
    rcases contexts with _ | ⟨current, _ | ⟨top, rest⟩⟩ <;>
      simp only [onAfterValueObject, apply_ite (Flow.map (Parser.retag l c m))] <;> rfl
  case afterValueArray =>
    rcases contexts with _ | ⟨current, _ | ⟨top, rest⟩⟩ <;>
      simp only [onAfterValueArray, apply_ite (Flow.map (Parser.retag l c m))] <;> rfl

def Parser.core (p : Parser) : Parser := p.retag (fun _ => 1) (fun _ => 1) id

@[simp] theorem Parser.core_init (root : Container) (maxLevels : Option Nat) :
    (Parser.init root maxLevels).core = Parser.init root maxLevels := rfl

theorem Parser.core_count (p : Parser) (ch : Byte) : (p.count ch).core = p.core := by
  simp only [Parser.count]; split <;> rfl

theorem coreStep_core (cc : CharConv) (p : Parser) (ch : Byte) :
    coreStep cc p.core ch = (step cc p ch).map Parser.core := by
  have hpass : pass cc p.core ch = (pass cc p ch).map Parser.core := pass_retag fun _ _ => rfl
  simp only [coreStep, step, hpass]
  cases pass cc p ch <;> simp [Flow.map, Flow.toMove, Move.map, Parser.core_count]

theorem scan_core (cc : CharConv) (p : Parser) (w : Str) :
    scan (coreStep cc) p.core w = (scan (step cc) p w).map Parser.core :=
  scan_map (coreStep_core cc) p w

end Jopp
