import Jopp.Parser.Accepts

/-!
# Jopp.Parser.Nesting

How deep a text is nested, as far as its brackets tell that stand outside of strings, and what that
has to do with the depth limit: a parser with a limit completes exactly on the inputs a parser
without one completes on and whose `nesting` the limit allows (`completes_iff`).
-/

namespace Jopp

open Resumable

structure NestingCount where
  place : Place
  depth : Nat
  deepest : Nat

def NestingCount.Ended (n : NestingCount) : Prop := n.depth = 0 ∧ 0 < n.deepest

instance (n : NestingCount) : Decidable n.Ended := inferInstanceAs (Decidable (_ ∧ _))

def NestingCount.next (n : NestingCount) (ch : Byte) : NestingCount :=
  if n.Ended then n
  else if n.place.quoted then { n with place := n.place.next ch }
  else if ch = Delimiters.beginArray ∨ ch = Delimiters.beginObject then
    ⟨n.place.next ch, n.depth + 1, max n.deepest (n.depth + 1)⟩
  else if ch = Delimiters.endArray ∨ ch = Delimiters.endObject then
    ⟨n.place.next ch, n.depth - 1, n.deepest⟩
  else { n with place := n.place.next ch }

/-- The largest number of containers open at a time, up to the end of the outermost one. -/
def nesting (w : Str) : Nat := (w.foldl NestingCount.next ⟨.outside, 0, 0⟩).deepest

section

variable {n : NestingCount} {ch : Byte} {p : Parser}

theorem next_ended (h : n.Ended) (ch : Byte) : n.next ch = n := if_pos h

theorem foldl_ended (h : n.Ended) (w : Str) : w.foldl NestingCount.next n = n := by
  induction w with
  | nil => rfl
  | cons ch w ih => rw [List.foldl_cons, next_ended h, ih]

theorem deepest_le_next (n : NestingCount) (ch : Byte) : n.deepest ≤ (n.next ch).deepest := by
  simp only [NestingCount.next]
  split_ifs <;> simp

theorem deepest_le_foldl (n : NestingCount) (w : Str) :
    n.deepest ≤ (w.foldl NestingCount.next n).deepest := by
  induction w generalizing n with
  | nil => exact Nat.le_refl _
  | cons ch w ih => exact Nat.le_trans (deepest_le_next n ch) (ih _)

/-! ## The count and the stack -/

def Allows (maxLevels : Option Nat) (n : Nat) : Prop := ∀ k, maxLevels = some k → n ≤ k

/-- The count beside a running parser. -/
structure Parser.Stacked (p : Parser) (n : NestingCount) : Prop where
  depth : n.depth = p.contexts.length
  fresh : n.depth = 0 → n.deepest = 0
  le : n.depth ≤ n.deepest
  allowed : Allows p.maxLevels n.deepest

/-- What the state says about the count. A literal may hold any bytes before it is looked at. -/
def Parser.Counted (p : Parser) (n : NestingCount) : Prop :=
  match p.currentState with
  | .literal => (∀ ch ∈ p.buffer, isPlain ch = true) → n.place.quoted = false ∧ p.Stacked n
  | .stringValue | .key => n.place = .inString ∧ p.Stacked n
  | .stringValueEscSeq | .keyEscSeq => n.place = .afterBackslash ∧ p.Stacked n
  | .value | .beforeKey | .beforeValue | .afterValueObject | .afterValueArray =>
    n.place.quoted = false ∧ p.Stacked n

theorem counted_literal (hs : p.currentState = .literal) :
    p.Counted n ↔
      ((∀ ch ∈ p.buffer, isPlain ch = true) → n.place.quoted = false ∧ p.Stacked n) := by
  unfold Parser.Counted
  rw [hs]

theorem counted_quoted {s escState : ParserState} (hs : Quoted s escState) :
    (p.currentState = s → (p.Counted n ↔ n.place = .inString ∧ p.Stacked n)) ∧
      (p.currentState = escState → (p.Counted n ↔ n.place = .afterBackslash ∧ p.Stacked n)) := by
  cases hs <;>
  · refine ⟨fun h => ?_, fun h => ?_⟩ <;>
    · unfold Parser.Counted
      rw [h]

theorem counted_between (hs : p.currentState.skipsBlanks = true) :
    p.Counted n ↔ n.place.quoted = false ∧ p.Stacked n := by
  unfold Parser.Counted
  generalize p.currentState = s at hs
  cases s with
  | literal | stringValue | stringValueEscSeq | key | keyEscSeq => cases hs
  | value | beforeKey | beforeValue | afterValueObject | afterValueArray => exact Iff.rfl

theorem Parser.Stacked.not_ended (h : p.Stacked n) : ¬ n.Ended := by
  rintro ⟨hdepth, hdeep⟩
  have := h.fresh hdepth
  omega

def isBracket (ch : Byte) : Prop :=
  ch = Delimiters.beginArray ∨ ch = Delimiters.beginObject ∨ ch = Delimiters.endArray ∨
    ch = Delimiters.endObject

instance (ch : Byte) : Decidable (isBracket ch) := inferInstanceAs (Decidable (_ ∨ _))

theorem not_isBracket_of_whitespace (h : isWhitespace ch = true) : ¬ isBracket ch := by
  rcases whitespace_cases h with rfl | rfl | rfl | rfl <;> decide

theorem not_isBracket_of_plain (h : isPlain ch = true) : ¬ isBracket ch := by
  obtain ⟨-, ha, ho, hea, heo, -, -⟩ := plain_ne h
  simp [isBracket, ha, ho, hea, heo]

theorem Parser.Stacked.skip (h : p.Stacked n) (ch : Byte)
    (hch : n.place.quoted = true ∨ ¬ isBracket ch) :
    n.next ch = { n with place := n.place.next ch } := by
  rw [NestingCount.next, if_neg h.not_ended]
  rcases hch with hq | hch
  · rw [if_pos hq]
  · simp only [isBracket, not_or] at hch
    simp [hch]

theorem Parser.Stacked.keep (h : p.Stacked n) {q : Parser} {place : Place}
    (hlen : q.contexts.length = p.contexts.length) (hmax : q.maxLevels = p.maxLevels) :
    q.Stacked { n with place := place } :=
  ⟨h.depth.trans hlen.symm, h.fresh, h.le, hmax ▸ h.allowed⟩

theorem Parser.Stacked.between (h : p.Stacked n) (hq : n.place.quoted = false)
    (hch : ¬ isBracket ch) (hne : ch ≠ Delimiters.stringBeginEnd) {q : Parser}
    (hs : q.currentState.skipsBlanks = true) (hlen : q.contexts.length = p.contexts.length)
    (hmax : q.maxLevels = p.maxLevels) : q.Counted (n.next ch) := by
  rw [h.skip ch (.inr hch)]
  exact (counted_between hs).mpr ⟨next_quiet hq hne, h.keep hlen hmax⟩

theorem Parser.Stacked.push (h : p.Stacked n) (hq : n.place.quoted = false)
    (hch : ch = Delimiters.beginArray ∨ ch = Delimiters.beginObject) :
    n.next ch = ⟨.outside, n.depth + 1, max n.deepest (n.depth + 1)⟩ := by
  have hplace : n.place.next ch = .outside := by
    rcases quoted_eq_false.mp hq with hp | hp <;> rcases hch with rfl | rfl <;> rw [hp] <;> rfl
  rw [NestingCount.next, if_neg h.not_ended, if_neg (by simp [hq]), if_pos hch, hplace]

theorem Parser.Stacked.open (h : p.Stacked n) (hd : p.tooDeep = false) (context : ParserContext)
    (s : ParserState) :
    Parser.Stacked { p with contexts := context :: p.contexts, currentState := s }
      ⟨.outside, n.depth + 1, max n.deepest (n.depth + 1)⟩ := by
  refine ⟨by simp [h.depth], by simp, Nat.le_max_right .., fun k hk => ?_⟩
  have hle := h.allowed k hk
  have hne : k ≠ p.contexts.length := by
    have hk : p.maxLevels = some k := hk
    simpa [Parser.tooDeep, hk] using hd
  have := h.le
  have := h.depth
  rw [Nat.max_le]
  exact ⟨hle, by omega⟩

theorem Parser.Stacked.pop (h : p.Stacked n) (hq : n.place.quoted = false) {s : ParserState}
    (hs : Closes s ch) : n.next ch = ⟨.outside, n.depth - 1, n.deepest⟩ := by
  rw [NestingCount.next, if_neg h.not_ended, if_neg (by simp [hq])]
  rcases quoted_eq_false.mp hq with hp | hp <;> rw [hp] <;> cases hs <;> rfl

/-- Where the parser completes, the outermost container has ended. -/
def CompletedAt (q : Parser) (e : Stop) (n : NestingCount) (ch : Byte) : Prop :=
  e = some .completed → (n.next ch).Ended ∧ Allows q.maxLevels (n.next ch).deepest

theorem counted_branch {cc : CharConv} (hcc : cc.Plain) {flow : Flow} (h : p.Counted n)
    (hb : Branch cc p ch flow) :
    flow.SatRead NestingCount.next Parser.Counted CompletedAt p n ch := by
  have hliteral : ∀ {val : Value}, p.currentState = .literal → makeValue cc p.buffer = some val →
      n.place.quoted = false ∧ p.Stacked n := fun hs hv =>
    (counted_literal hs).mp h (literal_plain hcc _ _ hv).2.2
  have hafter : ∀ (top : ParserContext) (val : Value),
      (storeValue top val).2.nextState.skipsBlanks = true := fun top val => by
    rw [(storeValue_nextState top val).1]
    exact skipsBlanks_afterItem _
  cases hb with
  | blank hs hch =>
    obtain ⟨hq, hst⟩ := (counted_between hs).mp h
    exact hst.between hq (not_isBracket_of_whitespace hch) (by rintro rfl; cases hch) hs rfl rfl
  | openArray hs hch hd =>
    obtain ⟨hq, hst⟩ := (counted_between (by rw [hs]; rfl)).mp h
    simp only [Flow.SatRead, hst.push hq (.inl hch)]
    exact ⟨rfl, hst.open hd _ _⟩
  | openObject hs hch hd =>
    obtain ⟨hq, hst⟩ := (counted_between (by rw [hs]; rfl)).mp h
    simp only [Flow.SatRead, hst.push hq (.inr hch)]
    exact ⟨rfl, hst.open hd _ _⟩
  | endInValue hs hch | endInBeforeKey hs hch =>
    obtain ⟨hq, hst⟩ := (counted_between (by rw [hs]; rfl)).mp h
    exact ⟨hq, hst.depth, hst.fresh, hst.le, hst.allowed⟩
  | openString hs hch hc | openKey hs hch =>
    subst hch
    obtain ⟨hq, hst⟩ := (counted_between (by rw [hs]; rfl)).mp h
    simp only [Flow.SatRead, hst.skip Delimiters.stringBeginEnd (.inr (by decide))]
    exact ⟨next_quote hq, hst.keep rfl rfl⟩
  | openLiteral hs hch ha ho he hq' hc =>
    intro hplain
    have hp : isPlain ch = true := hplain ch (by simp)
    obtain ⟨hq, hst⟩ := (counted_between (by rw [hs]; rfl)).mp h
    rw [hst.skip ch (.inr (not_isBracket_of_plain hp))]
    exact ⟨next_quiet hq hq', hst.keep rfl rfl⟩
  | literalChar hs hch =>
    refine (counted_literal (p := { p with buffer := p.buffer ++ [ch] }) hs).mpr fun hplain => ?_
    have hp : isPlain ch = true := hplain ch (by simp)
    obtain ⟨hq, hst⟩ :=
      (counted_literal hs).mp h fun b hb => hplain b (List.mem_append_left _ hb)
    rw [hst.skip ch (.inr (not_isBracket_of_plain hp))]
    exact ⟨next_quiet hq (plain_ne hp).2.2.2.2.2.2, hst.keep rfl rfl⟩
  | literalBlank hs hch hc hv hr =>
    rename_i top rest val
    obtain ⟨hq, hst⟩ := hliteral hs hv
    exact hst.between hq (not_isBracket_of_whitespace hch) (by rintro rfl; cases hch)
      (hafter top val) (by simp [hc]) rfl
  | literalBack hs hch hw hc hv hr =>
    rename_i top rest val
    obtain ⟨hq, hst⟩ := hliteral hs hv
    refine (counted_between (hafter top val)).mpr ⟨hq, ?_, hst.fresh, hst.le, hst.allowed⟩
    simp [hst.depth, hc]
  | rawChar hs hch =>
    obtain ⟨hp, hst⟩ := ((counted_quoted hs).1 rfl).mp h
    simp only [Flow.SatRead, hst.skip ch (.inl (by rw [hp]; rfl)), hp]
    exact ((counted_quoted (p := { p with buffer := p.buffer ++ [ch] }) hs).1 rfl).mpr
      ⟨next_raw hch, hst.keep rfl rfl⟩
  | beginEsc hs hch =>
    subst hch
    obtain ⟨hp, hst⟩ := ((counted_quoted hs).1 rfl).mp h
    simp only [Flow.SatRead, hst.skip beginEscSeq (.inl (by rw [hp]; rfl)), hp]
    exact ((counted_quoted hs).2 rfl).mpr ⟨rfl, hst.keep rfl rfl⟩
  | escChar hs hch =>
    obtain ⟨hp, hst⟩ := ((counted_quoted hs).2 rfl).mp h
    simp only [Flow.SatRead, hst.skip ch (.inl (by rw [hp]; rfl)), hp]
    exact ((counted_quoted hs).1 rfl).mpr ⟨rfl, hst.keep rfl rfl⟩
  | closeString hs hch hc hr =>
    subst hch
    rename_i top rest
    obtain ⟨hp, hst⟩ := ((counted_quoted .stringValue).1 hs).mp h
    simp only [Flow.SatRead, hst.skip Delimiters.stringBeginEnd (.inr (by decide)), hp]
    exact (counted_between (hafter top _)).mpr ⟨rfl, hst.keep (by simp [hc]) rfl⟩
  | closeKey hs hch hc =>
    subst hch
    obtain ⟨hp, hst⟩ := ((counted_quoted .key).1 hs).mp h
    simp only [Flow.SatRead, hst.skip Delimiters.stringBeginEnd (.inr (by decide)), hp]
    exact ⟨rfl, hst.keep (by simp [hc]) rfl⟩
  | colon hs hch | commaObject hs hch | commaArray hs hch =>
    obtain ⟨hq, hst⟩ := (counted_between (by rw [hs]; rfl)).mp h
    have hne : ¬ isBracket ch ∧ ch ≠ Delimiters.stringBeginEnd := by
      subst hch
      decide
    simp only [Flow.SatRead]
    exact hst.between hq hne.1 hne.2 rfl rfl rfl
  | closeContainer hs hc hr =>
    rename_i current top rest
    obtain ⟨hq, hst⟩ := (counted_between hs.skipsBlanks).mp h
    have hdepth : n.depth = rest.length + 2 := by simp [hst.depth, hc]
    have := hst.le
    refine (counted_between (hafter top _)).mpr ?_
    simp only [hst.pop hq hs]
    exact ⟨rfl, by simp [hdepth], by simp [hdepth], by simp; omega, hst.allowed⟩
  | closeRoot hs hc =>
    obtain ⟨hq, hst⟩ := (counted_between hs.skipsBlanks).mp h
    have hdepth : n.depth = 1 := by simp [hst.depth, hc]
    have := hst.le
    intro _
    rw [hst.pop hq hs]
    exact ⟨⟨by simp [hdepth], by simp; omega⟩, hst.allowed⟩
  | tooDeep | leafAtTop | literalInvalid | literalRefused | rawIllegal | escIllegal
  | stringRefused | illegal | closeRefused => exact fun he => by cases he
  | literalEmpty | stringEmpty | keyEmpty | closeEmpty => exact fun he => by cases he

end

/-! ## The limit -/

section

variable {cc : CharConv} {root : Container} {maxLevels : Option Nat} {k : Nat} {w : Str}

theorem counted_init (root : Container) (maxLevels : Option Nat) :
    (Parser.init root maxLevels).Counted ⟨.outside, 0, 0⟩ :=
  ⟨rfl, rfl, fun _ => rfl, Nat.le_refl _, fun _ _ => Nat.zero_le _⟩

theorem counted_count {p : Parser} {n : NestingCount} {ch : Byte} (h : p.Counted n) :
    (p.count ch).Counted n := by
  have hstacked : p.Stacked n → (p.count ch).Stacked n := fun hst =>
    ⟨by simp [hst.depth], hst.fresh, hst.le, by simpa using hst.allowed⟩
  unfold Parser.Counted at h ⊢
  rw [Parser.count_currentState, Parser.count_buffer]
  generalize p.currentState = s at h ⊢
  cases s with
  | literal => exact fun hplain => (h hplain).imp_right hstacked
  | _ => exact h.imp_right hstacked

theorem counted_scan (hcc : cc.Plain) (root : Container) (maxLevels : Option Nat) (w : Str) :
    (∀ q, scan (step cc) (Parser.init root maxLevels) w = .more q →
      q.Counted (w.foldl NestingCount.next ⟨.outside, 0, 0⟩)) ∧
    (∀ q e n, scan (step cc) (Parser.init root maxLevels) w = .stopped q e n →
      ∃ u ch v, w = u ++ ch :: v ∧ n = u.length + 1 ∧
        CompletedAt q e (u.foldl NestingCount.next ⟨.outside, 0, 0⟩) ch) :=
  scan_branch_foldl (fun _ _ _ => counted_count) (fun _ _ _ _ => counted_branch hcc)
    (counted_init root maxLevels) w

theorem completed_allowed (hcc : cc.Plain) {q : Parser} {n : Nat}
    (h : scan (step cc) (Parser.init root maxLevels) w = .stopped q (some .completed) n) :
    Allows maxLevels (nesting w) := by
  have hmax := maxLevels_scan cc (Parser.init root maxLevels) w
  rw [h] at hmax
  obtain ⟨u, ch, v, rfl, -, hcompleted⟩ := (counted_scan hcc root maxLevels w).2 q _ n h
  obtain ⟨hended, hallows⟩ := hcompleted rfl
  rw [nesting, List.foldl_append, List.foldl_cons, foldl_ended hended]
  rw [show q.maxLevels = maxLevels from hmax] at hallows
  exact hallows

theorem lt_nesting (hcc : cc.Plain) {u v : Str} {ch : Byte} {q : Parser}
    (hu : scan (step cc) (Parser.init root (some k)) u = .more q) (hE : Exceeds q ch) :
    k < nesting (u ++ ch :: v) := by
  obtain ⟨hs, hch, hdeep⟩ := hE
  have hmax := maxLevels_scan cc (Parser.init root (some k)) u
  rw [hu] at hmax
  have hcounted := (counted_scan hcc root (some k) u).1 q hu
  obtain ⟨hq, hst⟩ := (counted_between (by rw [hs]; rfl)).mp hcounted
  have hlen : q.contexts.length = k := by
    rw [Parser.tooDeep, show q.maxLevels = some k from hmax] at hdeep
    exact (Option.some.inj (beq_iff_eq.mp hdeep)).symm
  have hrest := deepest_le_foldl
    (NestingCount.next (u.foldl NestingCount.next ⟨.outside, 0, 0⟩) ch) v
  rw [nesting, List.foldl_append, List.foldl_cons]
  refine Nat.lt_of_lt_of_le ?_ hrest
  rw [hst.push hq hch, hst.depth, hlen]
  exact Nat.lt_of_lt_of_le (Nat.lt_succ_self k) (Nat.le_max_right ..)

/-- The parser completes with this root. -/
def Completes (cc : CharConv) (maxLevels : Option Nat) (w : Str) (c : Container) : Prop :=
  ∃ res q, parse cc (Parser.init .empty maxLevels) w = .returned res q ∧ res.ec = .completed ∧
    q.root = c

theorem Completes.unlimited {c : Container} (h : Completes cc maxLevels w c) :
    Completes cc none w c := by
  cases maxLevels with
  | none => exact h
  | some k =>
    have hwithin : (Parser.init .empty (some k)).Within k := ⟨rfl, trivial⟩
    obtain ⟨res, q, hp, hec, hroot⟩ := h
    rcases limit_scan cc (Parser.init .empty (some k)) w with hrun | ⟨u, ch, v, r, rfl, hu, hu', hE⟩
    · obtain ⟨q', hq', rfl⟩ := limited_eq_returned ((parse_limited hwithin hrun).symm.trans hp)
      exact ⟨res, q', hq', hec, hroot⟩
    · rw [(exceeds_at hwithin hu hu' hE v).1] at hp
      cases hp
      cases hec

theorem Completes.depth {c : Container} (h : Completes cc maxLevels w c) :
    Allows maxLevels c.depth := by
  obtain ⟨res, q, hrun, hec, rfl⟩ := h
  rintro k rfl
  have hwithin : (Parser.init .empty (some k)).Within k := ⟨rfl, trivial⟩
  exact (parse_depth hwithin hrun).2 hec

/-- A limit rejects, of the inputs accepted without one, those that are nested more deeply. -/
theorem completes_iff (hcc : cc.Plain) {c : Container} :
    Completes cc maxLevels w c ↔ Completes cc none w c ∧ Allows maxLevels (nesting w) := by
  constructor
  · intro h
    refine ⟨h.unlimited, ?_⟩
    obtain ⟨res, q, hp, hec, -⟩ := h
    exact completed_allowed hcc (stopped_of_completed hp hec)
  · rintro ⟨h, hallows⟩
    cases maxLevels with
    | none => exact h
    | some k =>
      have hwithin : (Parser.init .empty (some k)).Within k := ⟨rfl, trivial⟩
      rcases limit_scan cc (Parser.init .empty (some k)) w with
        hrun | ⟨u, ch, v, r, rfl, hu, hu', hE⟩
      · obtain ⟨res, q, hp, hec, hroot⟩ := h
        have hlim : parse cc (Parser.init .empty (some k)) w =
            (parse cc (Parser.init .empty none) w).limited k := parse_limited hwithin hrun
        rw [hp] at hlim
        exact ⟨res, q.limited k, hlim, hec, hroot⟩
      · -- the limit bites
        have hdeep := lt_nesting hcc (v := v) hu hE
        have := hallows k rfl
        omega

end

end Jopp
