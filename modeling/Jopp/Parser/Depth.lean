import Jopp.Parser.Chunks

/-!
# Jopp.Parser.Depth

The depth limit. A parser with `max_levels = k` never holds more than `k` open containers, and
its tree is at most `k` levels deep (`depth_scan`). Beside it runs the same parser without a
limit, with which it agrees until that one is about to hold `k + 1` containers (`limit_scan`).
The two facts together are `depth_limit_exact`.
-/

namespace Jopp

open Resumable

/-! ## Depth of what is stored -/

theorem depth_object_le {ms : List (Str × Value)} {d : Nat} :
    (Container.object ms).depth ≤ d ↔ 0 < d ∧ ∀ kv ∈ ms, kv.2.depth + 1 ≤ d := by
  simp only [Container.depth, toValue, Value.depth]
  obtain _ | d := d
  · simp
  · simp [memberDepth_le]

theorem depth_array_le {vs : List Value} {d : Nat} :
    (Container.array vs).depth ≤ d ↔ 0 < d ∧ ∀ v ∈ vs, v.depth + 1 ≤ d := by
  simp only [Container.depth, toValue, Value.depth]
  obtain _ | d := d
  · simp
  · simp [itemDepth_le]

theorem storeValue_depth {parent : ParserContext} {val : Value} {d : Nat}
    (hp : parent.value.depth ≤ d) (hv : val.depth + 1 ≤ d) :
    (storeValue parent val).1.value.depth ≤ d := by
  cases h : parent.value with
  | object ms =>
    rw [h, depth_object_le] at hp
    rw [(storeValue_object val h).1, depth_object_le]
    refine ⟨hp.1, fun kv hkv => ?_⟩
    rcases SortedMap.mem_insert hkv with rfl | hkv
    · exact hv
    · exact hp.2 kv hkv
  | array vs =>
    rw [h, depth_array_le] at hp
    rw [(storeValue_array val h).1, depth_array_le]
    refine ⟨hp.1, fun v hv' => ?_⟩
    rcases List.mem_append.mp hv' with hv' | hv'
    · exact hp.2 v hv'
    · rw [List.mem_singleton.mp hv']; exact hv

/-- Every container on the stack fits below the limit at its own level. -/
def Fits (k : Nat) : List ParserContext → Prop
  | [] => True
  | c :: rest => rest.length + c.value.depth ≤ k ∧ Fits k rest

theorem depth_pos (c : Container) : 0 < c.depth := by
  cases c <;> exact Nat.succ_pos _

theorem Fits.length_le {k : Nat} : ∀ {cs : List ParserContext}, Fits k cs → cs.length ≤ k
  | [], _ => Nat.zero_le k
  | c :: rest, h => by
    have := depth_pos c.value
    have := h.1
    simp only [List.length_cons]
    omega

theorem Fits.store {k : Nat} {top : ParserContext} {rest : List ParserContext} {val : Value}
    (h : Fits k (top :: rest)) (hv : rest.length + val.depth + 1 ≤ k) :
    Fits k ((storeValue top val).1 :: rest) := by
  refine ⟨?_, h.2⟩
  have := h.1
  have hstored : (storeValue top val).1.value.depth ≤ k - rest.length :=
    storeValue_depth (by omega) (by omega)
  omega

theorem Fits.storeChild {k : Nat} {current top : ParserContext} {rest : List ParserContext}
    (h : Fits k (current :: top :: rest)) :
    Fits k ((storeValue top (toValue current.value)).1 :: rest) := by
  have := h.1
  simp only [List.length_cons, Container.depth] at this
  exact h.2.store (by omega)

theorem makeValue_depth {cc : CharConv} {w : Str} {val : Value}
    (h : makeValue cc w = some val) : val.depth = 0 := by
  rcases makeValue_cases h with ⟨-, rfl⟩ | ⟨-, rfl⟩ | ⟨-, rfl⟩ | ⟨x, -, rfl⟩ <;> rfl

/-! ## The limited parser -/

def Parser.Within (k : Nat) (p : Parser) : Prop := p.maxLevels = some k ∧ Fits k p.contexts

theorem Within.lt_of_not_tooDeep {k : Nat} {p : Parser} (h : p.Within k)
    (hd : p.tooDeep = false) : p.contexts.length < k := by
  have hle := h.2.length_le
  have hne : k ≠ p.contexts.length := by
    simpa [Parser.tooDeep, h.1] using hd
  omega

theorem Fits.storeScalar {k : Nat} {top : ParserContext} {rest : List ParserContext} {val : Value}
    (h : Fits k (top :: rest)) (hv : val.depth = 0) :
    Fits k ((storeValue top val).1 :: rest) := by
  have := h.length_le
  simp only [List.length_cons] at this
  exact h.store (by omega)

theorem within_branch {cc : CharConv} {k : Nat} {p : Parser} {ch : Byte} {flow : Flow}
    (h : p.Within k) (hb : Branch cc p ch flow) :
    flow.Sat (Parser.Within k)
      (fun q e => q.contexts.length ≤ k ∧ (e = some .completed → q.root.depth ≤ k)) p := by
  obtain ⟨hk, hfit⟩ := h
  have hlen := hfit.length_le
  cases hb with
  | openArray hs hch hd =>
    have := Within.lt_of_not_tooDeep ⟨hk, hfit⟩ hd
    exact ⟨hk, by simp only [Container.depth, toValue, Value.depth, itemDepth]; omega, hfit⟩
  | openObject hs hch hd =>
    have := Within.lt_of_not_tooDeep ⟨hk, hfit⟩ hd
    exact ⟨hk, by simp only [Container.depth, toValue, Value.depth, memberDepth]; omega, hfit⟩
  | literalBlank hs hch hc hv hr | literalBack hs hch hw hc hv hr =>
    rw [hc] at hfit
    exact ⟨hk, hfit.storeScalar (makeValue_depth hv)⟩
  | closeString hs hch hc hr =>
    rw [hc] at hfit
    exact ⟨hk, hfit.storeScalar rfl⟩
  | closeKey hs hch hc =>
    rw [hc] at hfit
    exact ⟨hk, hfit⟩
  | closeContainer hs hc hr =>
    rw [hc] at hfit
    exact ⟨hk, hfit.storeChild⟩
  | closeRoot hs hc =>
    rw [hc] at hfit
    refine ⟨Nat.zero_le k, fun _ => ?_⟩
    simpa using hfit.1
  | literalRefused hs hch hc hv hr | stringRefused hs hch hc hr =>
    rw [hc] at hlen
    exact ⟨hlen, fun h => by cases h⟩
  | closeRefused hs hch hc hr =>
    rw [hc] at hlen
    exact ⟨by simp only [List.length_cons] at hlen ⊢; omega, fun h => by cases h⟩
  | blank | endInValue | openString | openLiteral | literalChar | rawChar | beginEsc | escChar
  | openKey | endInBeforeKey | colon | commaObject | commaArray => exact ⟨hk, hfit⟩
  | tooDeep | leafAtTop | literalInvalid | rawIllegal | escIllegal | illegal =>
    exact ⟨hlen, fun h => by cases h⟩
  | literalEmpty | stringEmpty | keyEmpty | closeEmpty => exact ⟨hlen, fun h => by cases h⟩

theorem depth_scan (cc : CharConv) {k : Nat} {p : Parser} (h : p.Within k) (w : Str) :
    (scan (step cc) p w).Sat (Parser.Within k)
      (fun q e => q.contexts.length ≤ k ∧ (e = some .completed → q.root.depth ≤ k)) :=
  scan_branch_inv (I := Parser.Within k)
    (fun p ch h => by simpa [Parser.Within] using h) (fun _ _ _ => within_branch) h w

/-! ## Beside the unlimited parser -/

def Parser.unlimited (p : Parser) : Parser := p.retag id id fun _ => none

def Parser.limited (k : Nat) (p : Parser) : Parser := p.retag id id fun _ => some k

def Outcome.limited (k : Nat) : Outcome → Outcome
  | .returned res p => .returned res (p.limited k)
  | o => o

theorem limited_eq_returned {k : Nat} {o : Outcome} {res : ParseResult} {q : Parser}
    (h : o.limited k = .returned res q) : ∃ q', o = .returned res q' ∧ q = q'.limited k := by
  cases o with
  | returned res' q' => cases h; exact ⟨q', rfl, rfl⟩
  | undefined | outOfFuel => cases h

/-- The next byte opens a container that the limit does not allow. -/
def Exceeds (p : Parser) (ch : Byte) : Prop :=
  p.currentState = .value ∧ (ch = Delimiters.beginArray ∨ ch = Delimiters.beginObject) ∧
    p.tooDeep = true

theorem step_unlimited {cc : CharConv} {p : Parser} {ch : Byte} (h : ¬ Exceeds p ch) :
    step cc p.unlimited ch = (step cc p ch).map Parser.unlimited := by
  have hpass : pass cc p.unlimited ch = (pass cc p ch).map Parser.unlimited := by
    refine pass_retag fun hs hch => ?_
    have hd : p.tooDeep = false := by
      by_contra hd
      exact h ⟨hs, hch, by simpa using hd⟩
    rw [hd]; rfl
  have hcount : ∀ q : Parser, (q.count ch).unlimited = q.unlimited.count ch := fun q => by
    simp only [Parser.count]; split <;> rfl
  simp only [step, hpass]
  cases pass cc p ch <;> simp [Flow.map, Flow.toMove, Move.map, hcount]

theorem back_not_exceeds {cc : CharConv} {p q : Parser} {ch : Byte} (h : step cc p ch = .back q) :
    ¬ Exceeds q ch := by
  intro hE
  rcases pass_back_state (toMove_eq_back h) with hs | hs <;> rw [hE.1] at hs <;> cases hs

theorem eat_exceeds (cc : CharConv) {p : Parser} {ch : Byte} (h : Exceeds p ch) :
    eat (step cc) p ch = .error (p, some .nestingLevelTooDeep) ∧
      ∃ q, eat (step cc) p.unlimited ch = .ok q ∧ q.contexts.length = p.contexts.length + 1 := by
  obtain ⟨hs, hch, hd⟩ := h
  have hs' : p.unlimited.currentState = .value := hs
  have hd' : p.unlimited.tooDeep = false := rfl
  rcases hch with rfl | rfl
  · refine ⟨eat_stop (by simp [step, pass, hs, onValue, hd, Flow.toMove]), _,
      eat_next (by simp only [step, pass, hs', onValue, hd']; rfl), ?_⟩
    simp [Parser.unlimited, Parser.retag]
  · have hne : Delimiters.beginObject ≠ Delimiters.beginArray := by decide
    refine ⟨eat_stop (by simp [step, pass, hs, onValue, hne, hd, Flow.toMove]), _,
      eat_next (by simp only [step, pass, hs', onValue, hne, if_false, hd']; rfl), ?_⟩
    simp [Parser.unlimited, Parser.retag]

theorem exceeds_of_tooDeep {cc : CharConv} {p q : Parser} {ch : Byte}
    (h : eat (step cc) p ch = .error (q, some .nestingLevelTooDeep)) : Exceeds p ch := by
  have hret : ∀ {p q : Parser}, step cc p ch = .stop q (some .nestingLevelTooDeep) →
      Exceeds p ch := by
    intro p q h
    have hb := pass_branch cc p ch
    rw [toMove_eq_stop h] at hb
    cases hb with
    | tooDeep hs hch hd => exact ⟨hs, hch, hd⟩
  simp only [eat] at h
  cases hstep : step cc p ch with
  | next q' => simp [hstep] at h
  | stop q' e =>
    simp only [hstep, Except.error.injEq, Prod.mk.injEq] at h
    obtain ⟨rfl, rfl⟩ := h
    exact hret hstep
  | back q' =>
    simp only [hstep] at h
    cases hstep' : step cc q' ch with
    | next q'' => simp [hstep'] at h
    | back q'' => simp [hstep'] at h
    | stop q'' e =>
      simp only [hstep', Except.error.injEq, Prod.mk.injEq] at h
      obtain ⟨rfl, rfl⟩ := h
      exact absurd (hret hstep') (back_not_exceeds hstep)

/-- The two runs agree, or there is a first byte at which the limit bites. -/
theorem limit_scan (cc : CharConv) (p : Parser) (w : Str) :
    scan (step cc) p.unlimited w = (scan (step cc) p w).map Parser.unlimited ∨
      ∃ u ch v q, w = u ++ ch :: v ∧ scan (step cc) p u = .more q ∧
        scan (step cc) p.unlimited u = .more q.unlimited ∧ Exceeds q ch :=
  scan_map_until (f := Parser.unlimited) (E := Exceeds) (fun _ _ h => step_unlimited h)
    (fun p ch q (h : step cc p ch = .back q) => back_not_exceeds h) p w

/-! ## The exact limit -/

/-- On every prefix of `w`, the call on that prefix leaves at most `k` containers open. -/
def StaysWithin (cc : CharConv) (p : Parser) (k : Nat) (w : Str) : Prop :=
  ∀ u, u <+: w → ∀ res q, parse cc p u = .returned res q → q.currentDepth ≤ k

/-- At most `k` containers are open up to `u`, and the next byte `ch` opens one more. -/
def FirstExceeds (cc : CharConv) (p : Parser) (k : Nat) (u : Str) (ch : Byte) : Prop :=
  StaysWithin cc p k u ∧
    ∃ res q, parse cc p (u ++ [ch]) = .returned res q ∧ q.currentDepth = k + 1

section

variable {cc : CharConv} {k : Nat} {p : Parser} {w : Str}

theorem parse_depth (h : p.Within k) {res : ParseResult} {q : Parser}
    (hp : parse cc p w = .returned res q) :
    q.currentDepth ≤ k ∧ (res.ec = .completed → q.root.depth ≤ k) := by
  have hsat := depth_scan cc h w
  rcases returned_cases hp with ⟨hm, hres⟩ | ⟨hs, -⟩
  · rw [hm] at hsat
    exact ⟨hsat.2.length_le, fun he => by rw [hres] at he; cases he⟩
  · rw [hs] at hsat
    exact ⟨hsat.1, fun he => hsat.2 (congrArg some he)⟩

theorem maxLevels_scan (cc : CharConv) (p : Parser) (w : Str) :
    (scan (step cc) p w).Sat (fun q => q.maxLevels = p.maxLevels)
      (fun q _ => q.maxLevels = p.maxLevels) := by
  refine scan_branch_inv (I := fun q => q.maxLevels = p.maxLevels)
    (fun q ch hq => by simpa using hq) (fun q ch flow hq hb => ?_) rfl w
  cases hb <;> simp [Flow.Sat, hq]

/-- While the two runs agree, so do the calls. -/
theorem parse_limited (h : p.Within k)
    (hrun : scan (step cc) p.unlimited w = (scan (step cc) p w).map Parser.unlimited) :
    parse cc p w = (parse cc p.unlimited w).limited k := by
  have hk := maxLevels_scan cc p w
  rw [h.1] at hk
  have hback : ∀ q : Parser, q.maxLevels = some k → q.unlimited.limited k = q := by
    rintro ⟨_, _, _, _, _, _, _⟩ hq
    cases hq
    rfl
  rw [parse_eq_scan, parse_eq_scan, hrun]
  rcases hr : scan (step cc) p w with q | ⟨q, _ | ec, n⟩ <;> rw [hr] at hk
  · simp only [Result.map, Outcome.ofResult, Outcome.limited, hback q hk]; rfl
  · rfl
  · simp only [Result.map, Outcome.ofResult, Outcome.limited, hback q hk]; rfl

/-- The limited parser at the byte at which the limit bites, and the other one there. -/
theorem exceeds_at (h : p.Within k) {u : Str} {ch : Byte} {q : Parser}
    (hu : scan (step cc) p u = .more q) (hu' : scan (step cc) p.unlimited u = .more q.unlimited)
    (hE : Exceeds q ch) (v : Str) :
    parse cc p (u ++ ch :: v) = .returned ⟨u.length + 1, .nestingLevelTooDeep, q.line, q.col⟩ q ∧
      ∃ res r, parse cc p.unlimited (u ++ [ch]) = .returned res r ∧ r.currentDepth = k + 1 := by
  obtain ⟨hstop, r, hr, hlen⟩ := eat_exceeds cc hE
  have hq := maxLevels_scan cc p u
  rw [hu, h.1] at hq
  have hdepth : q.contexts.length = k := by
    have := hE.2.2
    simp only [Parser.tooDeep, show q.maxLevels = some k from hq, beq_iff_eq,
      Option.some.injEq] at this
    exact this.symm
  refine ⟨parse_of_stopped ?_, _, r, parse_of_more ?_, ?_⟩
  · rw [scan_append_more hu, scan_cons_error v hstop]; rfl
  · rw [scan_append_more hu', scan_cons_ok [] hr]; rfl
  · rw [Parser.currentDepth, hlen, hdepth]

theorem agree_of_more {u : Str} {q : Parser} (hu : scan (step cc) p u = .more q) {u' : Str}
    (hpre : u' <+: u) :
    scan (step cc) p.unlimited u' = (scan (step cc) p u').map Parser.unlimited := by
  rcases limit_scan cc p u' with hrun | ⟨u₂, ch, v, r, rfl, hu₂, -, hE⟩
  · exact hrun
  · obtain ⟨t, rfl⟩ := hpre
    rw [List.append_assoc, scan_append_more hu₂, List.cons_append,
      scan_cons_error _ (eat_exceeds cc hE).1] at hu
    cases hu

theorem limited_of_staysWithin (h : p.Within k) (hs : StaysWithin cc p.unlimited k w) :
    parse cc p w = (parse cc p.unlimited w).limited k := by
  rcases limit_scan cc p w with hrun | ⟨u, ch, v, q, rfl, hu, hu', hE⟩
  · exact parse_limited h hrun
  · obtain ⟨-, res, r, hr, hdepth⟩ := exceeds_at h hu hu' hE v
    have := hs (u ++ [ch]) ⟨v, by simp⟩ res r hr
    omega

theorem tooDeep_of_firstExceeds (h : p.Within k) {u : Str} {ch : Byte}
    (hf : FirstExceeds cc p.unlimited k u ch) (v : Str) :
    (ch = Delimiters.beginArray ∨ ch = Delimiters.beginObject) ∧
      ∃ q, parse cc p u = .returned ⟨u.length, .moreDataNeeded, q.line, q.col⟩ q ∧
        parse cc p (u ++ ch :: v) =
          .returned ⟨u.length + 1, .nestingLevelTooDeep, q.line, q.col⟩ q := by
  obtain ⟨hs, res, r, hr, hdepth⟩ := hf
  rcases limit_scan cc p (u ++ [ch]) with hrun | ⟨u₂, ch₂, v₂, q, hw, hu, hu', hE⟩
  · -- the two runs cannot agree up to a state that holds `k + 1` containers
    have hlim := parse_limited h hrun
    rw [hr] at hlim
    have := (parse_depth h hlim).1
    simp only [Parser.currentDepth, Parser.limited, Parser.retag] at this hdepth
    omega
  · rcases List.eq_nil_or_concat v₂ with rfl | ⟨v₃, x, rfl⟩
    · obtain ⟨rfl, hch⟩ := List.append_inj' hw rfl
      cases hch
      exact ⟨hE.2.1, q, parse_of_more hu, (exceeds_at h hu hu' hE v).1⟩
    · -- the limit cannot bite inside `u`
      obtain ⟨-, res', r', hr', hdepth'⟩ := exceeds_at h hu hu' hE []
      have hpre : u₂ ++ [ch₂] <+: u := by
        refine ⟨v₃, ?_⟩
        have : u ++ [ch] = (u₂ ++ [ch₂] ++ v₃) ++ [x] := by simpa using hw
        exact (List.append_inj' this rfl).1.symm
      have := hs _ hpre res' r' hr'
      omega

theorem firstExceeds_of_tooDeep (h : p.Within k) {res : ParseResult} {q : Parser}
    (hp : parse cc p w = .returned res q) (hec : res.ec = .nestingLevelTooDeep) :
    ∃ u ch v, w = u ++ ch :: v ∧ res.ptr = u.length + 1 ∧
      FirstExceeds cc p.unlimited k u ch := by
  rcases returned_cases hp with ⟨-, hres⟩ | ⟨hs, -⟩
  · rw [hres] at hec
    cases hec
  · rw [hec] at hs
    obtain ⟨u, ch, v, r, hw, hptr, hu, he⟩ := scan_stopped hs
    have hE := exceeds_of_tooDeep he
    have hu' := agree_of_more hu (List.prefix_refl u)
    rw [hu] at hu'
    refine ⟨u, ch, v, hw, hptr, fun u' hpre res' r' hr' => ?_, (exceeds_at h hu hu' hE []).2⟩
    have hlim := parse_limited h (agree_of_more hu hpre)
    rw [hr'] at hlim
    exact (parse_depth h hlim).1

end

/-- **The depth limit is exact.** A parser limited to `k` levels beside the same parser without a
limit, on the same chunks. -/
theorem depth_limit_exact (cc : CharConv) (root : Container) (k : Nat) (chunks : List Str) :
    (∀ res q, parseChunks cc (Parser.init root (some k)) chunks = .returned res q →
      q.currentDepth ≤ k ∧ (res.ec = .completed → q.root.depth ≤ k)) ∧
    (StaysWithin cc (Parser.init root none) k chunks.flatten →
      parseChunks cc (Parser.init root (some k)) chunks =
        (parseChunks cc (Parser.init root none) chunks).limited k) ∧
    (∀ u ch v, chunks.flatten = u ++ ch :: v → FirstExceeds cc (Parser.init root none) k u ch →
      (ch = Delimiters.beginArray ∨ ch = Delimiters.beginObject) ∧
      (∀ u', u' <+: u → parse cc (Parser.init root (some k)) u' =
        (parse cc (Parser.init root none) u').limited k) ∧
      ∃ q, parse cc (Parser.init root (some k)) u =
          .returned ⟨u.length, .moreDataNeeded, q.line, q.col⟩ q ∧
        parseChunks cc (Parser.init root (some k)) chunks =
          .returned ⟨u.length + 1, .nestingLevelTooDeep, q.line, q.col⟩ q) ∧
    (∀ res q, parseChunks cc (Parser.init root (some k)) chunks = .returned res q →
      res.ec = .nestingLevelTooDeep →
      ∃ u ch v, chunks.flatten = u ++ ch :: v ∧ res.ptr = u.length + 1 ∧
        FirstExceeds cc (Parser.init root none) k u ch) := by
  have h : (Parser.init root (some k)).Within k := ⟨rfl, trivial⟩
  have hunl : Parser.init root none = (Parser.init root (some k)).unlimited := rfl
  rw [parseChunks_eq_parse, parseChunks_eq_parse, hunl]
  refine ⟨fun res q hp => parse_depth h hp, limited_of_staysWithin h, ?_,
    fun res q => firstExceeds_of_tooDeep h⟩
  intro u ch v hw hf
  obtain ⟨hch, q, hq, hq'⟩ := tooDeep_of_firstExceeds h hf v
  refine ⟨hch, fun u' hpre => limited_of_staysWithin h fun u₂ hu₂ => ?_, q, hq, ?_⟩
  · exact hf.1 u₂ (hu₂.trans hpre)
  · rw [hw]
    exact hq'

end Jopp
