import Jopp.Parser.Reads

/-!
# Jopp.Parser.Codec

`escape` and the quoted states of the parser are inverse to each other. `Spells` says that a parser
takes a text for what stands between an opening quote and the quote that closes it, `Records` what
string it has then recorded, as a key or as a value. Both are the same for keys and for values, and
both are what the characters of the grammar say (`spells_body`, `body_of_spells`).

Every reachable parser that expects a key or a value has an empty buffer (`Tidy`).
-/

namespace Jopp

open Resumable

/-! ## Escaping characters one by one -/

theorem supported_iff {ch : Byte} :
    isUnsupportedControl ch = false ↔ (ch ≤ 0x1f → ch = newline ∨ ch = horizontalTab) := by
  by_cases hcontrol : ch ≤ 0x1f <;> by_cases hnewline : ch = newline <;>
    by_cases htab : ch = horizontalTab <;> simp [isUnsupportedControl, *]

theorem escapeChar_raw {ch : Byte} (h : charShouldBeEscaped ch = false) :
    escapeChar ch = some [ch] := by
  simp [escapeChar, h]

theorem escapeChar_escaped {escChar ch : Byte} (h : unescape escChar = some ch) :
    escapeChar ch = some [beginEscSeq, escChar] := by
  unfold unescape at h
  split_ifs at h with h₁ h₂ h₃ h₄ <;> cases h
  · rw [h₁]; rfl
  · rw [h₂]; rfl
  · rw [h₃]; rfl
  · rw [h₄]; rfl

/-- A text as the grammar has it is the only spelling of its string. -/
theorem escape_bodyVal (body : List StrChar) : escape (bodyVal body) = some (bodyText body) := by
  induction body with
  | nil => rfl
  | cons x body ih =>
    have hx : escapeChar x.val = some x.text := by
      cases x with
      | raw ch h => exact escapeChar_raw h
      | escaped escChar val h => exact escapeChar_escaped h
    show escape (x.val :: bodyVal body) = some (x.text ++ bodyText body)
    simp only [escape, hx, ih]

theorem escape_eq_some {s b : Str} :
    escape s = some b ↔ ∃ body, bodyText body = b ∧ bodyVal body = s := by
  refine ⟨escape_body, ?_⟩
  rintro ⟨body, rfl, rfl⟩
  exact escape_bodyVal body

/-- The escaped characters of a text, up to the first byte that does not continue them. -/
theorem body_split : ∀ b : Str, ∃ body rest, b = bodyText body ++ rest ∧
    (rest = [] ∨ rest = [beginEscSeq] ∨
      (∃ ch v, rest = ch :: v ∧ charShouldBeEscaped ch = true ∧ ch ≠ beginEscSeq) ∨
      ∃ escChar v, rest = beginEscSeq :: escChar :: v ∧ unescape escChar = none)
  | [] => ⟨[], [], rfl, .inl rfl⟩
  | [ch] => by
    by_cases hback : ch = beginEscSeq
    · exact ⟨[], [ch], rfl, .inr (.inl (by rw [hback]))⟩
    · cases hraw : charShouldBeEscaped ch with
      | true => exact ⟨[], [ch], rfl, .inr (.inr (.inl ⟨ch, [], rfl, hraw, hback⟩))⟩
      | false => exact ⟨[.raw ch hraw], [], rfl, .inl rfl⟩
  | ch :: escChar :: b => by
    by_cases hback : ch = beginEscSeq
    · subst hback
      cases hesc : unescape escChar with
      | none => exact ⟨[], _, rfl, .inr (.inr (.inr ⟨escChar, b, rfl, hesc⟩))⟩
      | some val =>
        obtain ⟨body, rest, rfl, hrest⟩ := body_split b
        exact ⟨.escaped escChar val hesc :: body, rest, rfl, hrest⟩
    · cases hraw : charShouldBeEscaped ch with
      | true => exact ⟨[], _, rfl, .inr (.inr (.inl ⟨ch, escChar :: b, rfl, hraw, hback⟩))⟩
      | false =>
        obtain ⟨body, rest, hb, hrest⟩ := body_split (escChar :: b)
        exact ⟨.raw ch hraw :: body, rest, by rw [hb]; rfl, hrest⟩

/-- Inside such a text one stands behind a character, or behind a backslash. -/
theorem body_prefix : ∀ (body : List StrChar) {u : Str}, u <+: bodyText body →
    ∃ done, u = bodyText done ∨ u = bodyText done ++ [beginEscSeq]
  | [], u, h => ⟨[], .inl (List.prefix_nil.mp h)⟩
  | x :: body, u, h => by
    cases u with
    | nil => exact ⟨[], .inl rfl⟩
    | cons ch u =>
      cases x with
      | raw ch' hraw =>
        obtain ⟨rfl, hu⟩ := List.cons_prefix_cons.mp h
        obtain ⟨done, hdone⟩ := body_prefix body hu
        exact ⟨.raw ch hraw :: done, hdone.imp (congrArg (ch :: ·)) (congrArg (ch :: ·))⟩
      | escaped escChar val hesc =>
        have htext : ch :: u <+: beginEscSeq :: escChar :: bodyText body := h
        obtain ⟨rfl, hu⟩ := List.cons_prefix_cons.mp htext
        cases u with
        | nil => exact ⟨[], .inr rfl⟩
        | cons ch' u =>
          obtain ⟨rfl, hu'⟩ := List.cons_prefix_cons.mp hu
          obtain ⟨done, hdone⟩ := body_prefix body hu'
          exact ⟨.escaped ch' val hesc :: done,
            hdone.imp (congrArg (beginEscSeq :: ch' :: ·)) (congrArg (beginEscSeq :: ch' :: ·))⟩

/-! ## Keys and values -/

inductive StringRole where
  | key
  | value

def StringRole.quoted : StringRole → ParserState
  | .key => .key
  | .value => .stringValue

def StringRole.escSeq : StringRole → ParserState
  | .key => .keyEscSeq
  | .value => .stringValueEscSeq

def StringRole.before : StringRole → ParserState
  | .key => .beforeKey
  | .value => .value

theorem StringRole.isQuoted (role : StringRole) : Quoted role.quoted role.escSeq := by
  cases role
  · exact .key
  · exact .stringValue

/-- A key is expected, or a value inside an array or under a key that is not yet present. -/
def Parser.Expects (p : Parser) (role : StringRole) : Prop :=
  p.currentState = role.before ∧
    (role = .value → ∃ top rest, p.contexts = top :: rest ∧
      ∀ ms, top.value = .object ms → top.key ∉ ms.map Prod.fst)

/-- From `p` to `q` the string `s` has been recorded. -/
def Parser.Records (p : Parser) (role : StringRole) (s : Str) (q : Parser) : Prop :=
  ∃ top rest, p.contexts = top :: rest ∧
    match role, top.value with
    | .key, c => q.currentState = .beforeValue ∧ q.contexts = ⟨s, c⟩ :: rest
    | .value, .array vs => q.currentState = .afterValueArray ∧
        q.contexts = ⟨[], .array (vs ++ [.string s])⟩ :: rest
    | .value, .object ms => q.currentState = .afterValueObject ∧
        q.contexts = ⟨[], .object (SortedMap.insert top.key (.string s) ms).1⟩ :: rest

/-- The parser takes `b` for the text between an opening quote and the quote that closes it. -/
structure Parser.Spells (cc : CharConv) (p : Parser) (role : StringRole) (b : Str) (q : Parser) :
    Prop where
  inside : ∀ u, u <+: b → ∃ r,
    parse cc p (Delimiters.stringBeginEnd :: u) =
      .returned ⟨u.length + 1, .moreDataNeeded, r.line, r.col⟩ r ∧
    (r.currentState = role.quoted ∨ r.currentState = role.escSeq)
  closed : parse cc p (Delimiters.stringBeginEnd :: (b ++ [Delimiters.stringBeginEnd])) =
    .returned ⟨b.length + 2, .moreDataNeeded, q.line, q.col⟩ q
  outside : q.currentState ≠ role.quoted ∧ q.currentState ≠ role.escSeq

section

variable {cc : CharConv} {p q : Parser} {role : StringRole} {s : Str}

theorem eat_quote_open {cs : List ParserContext} (hcs : role = .value → cs ≠ []) :
    eat (strictStep cc) (p.enter role.before cs) Delimiters.stringBeginEnd =
      .ok (p.reading role.quoted cs []) := by
  cases role with
  | key => exact eat_key_open
  | value =>
    obtain ⟨top, rest, rfl⟩ := List.exists_cons_of_ne_nil (hcs rfl)
    exact eat_string_open

theorem eat_quote_close (hp : p.Expects role) (hcs : p.contexts ≠ []) (s : Str) :
    ∃ q, eat (strictStep cc) (p.reading role.quoted p.contexts s) Delimiters.stringBeginEnd =
        .ok q ∧ p.Records role s q ∧ q.currentState ≠ role.quoted ∧
      q.currentState ≠ role.escSeq := by
  obtain ⟨top, rest, hc⟩ := List.exists_cons_of_ne_nil hcs
  obtain ⟨key, c⟩ := top
  rw [hc]
  cases role with
  | key => exact ⟨_, eat_key_close, ⟨_, _, hc, rfl, rfl⟩, nofun, nofun⟩
  | value =>
    cases c with
    | array vs =>
      exact ⟨_, eat_string_close (accept_array vs key (.string s)), ⟨_, _, hc, rfl, rfl⟩,
        nofun, nofun⟩
    | object ms =>
      have hfree : key ∉ ms.map Prod.fst := by
        obtain ⟨top, rest', hc', hfree⟩ := hp.2 rfl
        rw [hc] at hc'
        cases hc'
        exact hfree ms rfl
      have hinsert : (SortedMap.insert key (Value.string s) ms).2 = true := by
        by_contra hins
        exact hfree (SortedMap.mem_of_insert_refused (by simpa using hins))
      exact ⟨_, eat_string_close (accept_fresh hinsert), ⟨_, _, hc, rfl, rfl⟩,
        nofun, nofun⟩

theorem eat_illegal {cs : List ParserContext} {ch : Byte} (h : charShouldBeEscaped ch = true)
    (hback : ch ≠ beginEscSeq) (hquote : ch ≠ Delimiters.stringBeginEnd) :
    eat (strictStep cc) (p.reading role.quoted cs s) ch =
      .error (p.reading role.quoted cs s, some .characterMustBeEscaped) := by
  refine eat_ret (not_misplaced_reading role.isQuoted.ne_value.1) ?_
  cases role
  · show onQuoted _ _ _ _ = _
    rw [onQuoted, if_neg hquote, if_neg hback, h]
    rfl
  · show onQuoted _ _ _ _ = _
    rw [onQuoted, if_neg hquote, if_neg hback, h]
    rfl

theorem eat_unknown {cs : List ParserContext} {escChar : Byte} (h : unescape escChar = none) :
    eat (strictStep cc) (p.reading role.escSeq cs s) escChar =
      .error (p.reading role.escSeq cs s, some .unsupportedEscapeSequence) := by
  refine eat_ret (not_misplaced_reading role.isQuoted.ne_value.2) ?_
  cases role
  · show onEscSeq _ _ _ = _
    rw [onEscSeq, h]
  · show onEscSeq _ _ _ = _
    rw [onEscSeq, h]

/-! ## Whole strings -/

/-- Nothing is buffered, and there is a container to record in. -/
def Parser.ReadyFor (p : Parser) (role : StringRole) : Prop :=
  p.Expects role ∧ p.buffer = [] ∧ p.contexts ≠ []

theorem Parser.ReadyFor.core_eq (hp : p.ReadyFor role) :
    p.core = p.core.enter role.before p.contexts := by
  obtain ⟨⟨hs, -⟩, hb, -⟩ := hp
  obtain ⟨line, col, state, maxLevels, contexts, buffer, root⟩ := p
  cases hs
  cases hb
  rfl

theorem reads_opened (hp : p.ReadyFor role) (body : List StrChar) (u : Str) :
    Reads (strictStep cc) p.core (Delimiters.stringBeginEnd :: bodyText body)
      (p.core.reading role.quoted p.contexts (bodyVal body)) u := by
  rw [hp.core_eq]
  exact Reads.cons (eat_quote_open fun _ => hp.2.2) (reads_body role.isQuoted body [] u)

theorem scan_opened (hp : p.ReadyFor role) (body : List StrChar) (u : Str) :
    scan (strictStep cc) p.core (Delimiters.stringBeginEnd :: (bodyText body ++ u)) =
      (scan (strictStep cc) (p.core.reading role.quoted p.contexts (bodyVal body)) u).after
        ((bodyText body).length + 1) :=
  reads_opened hp body u

theorem scan_closed (cc : CharConv) (hp : p.ReadyFor role) (body : List StrChar) :
    ∃ q, scan (strictStep cc) p.core
        (Delimiters.stringBeginEnd :: (bodyText body ++ [Delimiters.stringBeginEnd])) = .more q ∧
      p.Records role (bodyVal body) q ∧ q.currentState ≠ role.quoted ∧
      q.currentState ≠ role.escSeq := by
  have hexpects : p.core.Expects role := hp.1
  obtain ⟨q, hq, hrecords, houtside⟩ := eat_quote_close hexpects hp.2.2 (bodyVal body)
  refine ⟨q, ?_, hrecords, houtside⟩
  rw [scan_opened hp]
  exact congrArg (Result.after _) (scan_cons_ok [] hq)

theorem more_inside {w : Str}
    (h : scan (strictStep cc) p.core w = .more (p.core.reading role.quoted p.contexts s) ∨
      scan (strictStep cc) p.core w = .more (p.core.reading role.escSeq p.contexts s)) :
    ∃ r, parse cc p w = .returned ⟨w.length, .moreDataNeeded, r.line, r.col⟩ r ∧
      (r.currentState = role.quoted ∨ r.currentState = role.escSeq) := by
  rcases h with h | h
  · obtain ⟨r, hr, hcore⟩ := more_of_strict h
    exact ⟨r, hr, .inl (congrArg Parser.currentState hcore)⟩
  · obtain ⟨r, hr, hcore⟩ := more_of_strict h
    exact ⟨r, hr, .inr (congrArg Parser.currentState hcore)⟩

/-- The parser reads the text of some characters and records their values. -/
theorem spells_body (cc : CharConv) (hp : p.ReadyFor role) (body : List StrChar) :
    ∃ q, p.Spells cc role (bodyText body) q ∧ p.Records role (bodyVal body) q := by
  obtain ⟨q, hclosed, hrecords, houtside⟩ := scan_closed cc hp body
  obtain ⟨r, hr, rfl⟩ := more_of_strict hclosed
  refine ⟨r, ⟨fun u hu => ?_, by simpa using hr, houtside⟩, hrecords⟩
  obtain ⟨done, rfl | rfl⟩ := body_prefix body hu
  · refine more_inside (s := bodyVal done) (.inl ?_)
    have hread : scan (strictStep cc) p.core (Delimiters.stringBeginEnd :: (bodyText done ++ [])) =
        .more (p.core.reading role.quoted p.contexts (bodyVal done)) := scan_opened hp done []
    rwa [List.append_nil] at hread
  · refine more_inside (s := bodyVal done) (.inr ?_)
    rw [scan_opened hp]
    exact congrArg (Result.after _) (scan_cons_ok [] (eat_backslash role.isQuoted))

theorem Parser.Spells.not_stopped {b u : Str} (h : p.Spells cc role b q) (hu : u <+: b)
    {r : Parser} {n : Nat} (ec : ParserErrorCode) (hec : ec ≠ .moreDataNeeded)
    (hne : ec ≠ .illegalDelimiter) :
    scan (strictStep cc) p.core (Delimiters.stringBeginEnd :: u) ≠ .stopped r (some ec) n := by
  intro hstop
  obtain ⟨t, ht, -⟩ := returned_of_strict hstop fun he => absurd he hne
  obtain ⟨t', ht', -⟩ := h.inside u hu
  obtain ⟨hres, -⟩ := Outcome.returned.inj (ht.symm.trans ht')
  exact hec (congrArg ParseResult.ec hres)

theorem body_of_spells (hp : p.ReadyFor role) {b : Str} (h : p.Spells cc role b q) :
    ∃ body, bodyText body = b := by
  obtain ⟨body, rest, rfl, rfl | rfl | ⟨ch, v, rfl, hch, hback⟩ | ⟨escChar, v, rfl, hesc⟩⟩ :=
    body_split b
  · exact ⟨body, (List.append_nil _).symm⟩
  · -- the last quote stands behind a backslash
    exfalso
    have hmore : scan (strictStep cc) p.core
        (Delimiters.stringBeginEnd ::
          (bodyText body ++ [beginEscSeq] ++ [Delimiters.stringBeginEnd])) =
        .more (p.core.reading role.quoted p.contexts (bodyVal body ++ [0x22])) := by
      rw [List.append_assoc, scan_opened hp]
      have hread : Reads (strictStep cc) (p.core.reading role.quoted p.contexts (bodyVal body))
          [beginEscSeq, Delimiters.stringBeginEnd]
          (p.core.reading role.quoted p.contexts (bodyVal body ++ [0x22])) [] :=
        Reads.cons (eat_backslash role.isQuoted) (Reads.single (eat_escaped role.isQuoted rfl) [])
      exact congrArg (Result.after _) hread
    obtain ⟨r, hr, hinside⟩ := more_inside (.inl hmore)
    obtain ⟨-, rfl⟩ := Outcome.returned.inj (h.closed.symm.trans hr)
    exact hinside.elim h.outside.1 h.outside.2
  · exfalso
    have hu : bodyText body ++ [ch] <+: bodyText body ++ ch :: v :=
      ⟨v, by rw [List.append_assoc]; rfl⟩
    by_cases hquote : ch = Delimiters.stringBeginEnd
    · subst hquote
      obtain ⟨q', hmore, -, houtside⟩ := scan_closed cc hp body
      obtain ⟨r, hr, rfl⟩ := more_of_strict hmore
      obtain ⟨r', hr', hinside⟩ := h.inside _ hu
      obtain ⟨-, rfl⟩ := Outcome.returned.inj (hr.symm.trans hr')
      exact hinside.elim houtside.1 houtside.2
    · refine h.not_stopped hu .characterMustBeEscaped (by decide) (by decide) ?_
        (r := p.core.reading role.quoted p.contexts (bodyVal body))
        (n := (bodyText body).length + 1 + 1)
      rw [scan_opened hp, scan_cons_error [] (eat_illegal hch hback hquote)]
      rfl
  · exfalso
    have hu : bodyText body ++ [beginEscSeq, escChar] <+:
        bodyText body ++ beginEscSeq :: escChar :: v := ⟨v, by rw [List.append_assoc]; rfl⟩
    refine h.not_stopped hu .unsupportedEscapeSequence (by decide) (by decide) ?_
      (r := p.core.reading role.escSeq p.contexts (bodyVal body))
      (n := (bodyText body).length + 1 + (1 + 1))
    rw [scan_opened hp, scan_cons_ok [escChar] (eat_backslash role.isQuoted),
      scan_cons_error [] (eat_unknown hesc)]
    rfl

theorem records_unique {s' : Str} (hp : p.Expects role) (h : p.Records role s q)
    (h' : p.Records role s' q) : s = s' := by
  obtain ⟨top, rest, hc, hrec⟩ := h
  obtain ⟨top', rest', hc', hrec'⟩ := h'
  rw [hc] at hc'
  cases hc'
  obtain ⟨key, c⟩ := top
  cases role with
  | key =>
    have heq := hrec.2.symm.trans hrec'.2
    cases heq
    rfl
  | value =>
    cases c with
    | array vs => simpa using hrec.2.symm.trans hrec'.2
    | object ms =>
      obtain ⟨top', rest', hc', hfree⟩ := hp.2 rfl
      rw [hc] at hc'
      cases hc'
      have hmaps : (SortedMap.insert key (Value.string s) ms).1 =
          (SortedMap.insert key (Value.string s') ms).1 := by
        simpa using hrec.2.symm.trans hrec'.2
      exact Value.string.inj (SortedMap.insert_injective (hfree ms rfl) hmaps)

/-! ## Reachable parsers -/

/-- Outside literals and strings nothing is buffered, and without a container there is no key to
come. -/
structure Parser.Tidy (p : Parser) : Prop where
  buffer : p.currentState.skipsBlanks = true → p.buffer = []
  contexts : p.contexts = [] → p.currentState = .value ∨ p.currentState = .afterValueArray

theorem tidy_branch {ch : Byte} {flow : Flow} (h : p.Tidy) (hb : Branch cc p ch flow) :
    flow.Sat Parser.Tidy (fun _ _ => True) p := by
  have hopen : ∀ {s : ParserState}, p.currentState = s → s ≠ .value → s ≠ .afterValueArray →
      p.contexts ≠ [] := fun hs hv ha hc => (h.contexts hc).elim (hs ▸ hv) (hs ▸ ha)
  have hquoted : ∀ {s escState : ParserState}, Quoted s escState →
      p.currentState = s ∨ p.currentState = escState →
      p.contexts ≠ [] := by
    rintro s escState (_ | _) (hs | hs) <;> exact hopen hs nofun nofun
  cases hb with
  | blank hs hch => exact h
  | openArray hs hch hd | openObject hs hch hd =>
    exact ⟨fun _ => h.buffer (by rw [hs]; rfl), nofun⟩
  | endInValue hs hch => exact ⟨fun _ => h.buffer (by rw [hs]; rfl), fun _ => .inr rfl⟩
  | openString hs hch hc => exact ⟨nofun, fun hc' => absurd hc' hc⟩
  | openLiteral hs hch ha ho he hq hc => exact ⟨nofun, fun hc' => absurd hc' hc⟩
  | literalChar hs hch =>
    refine ⟨fun hskip => ?_, fun hc => absurd hc (hopen hs nofun nofun)⟩
    rw [hs] at hskip
    cases hskip
  | literalBlank hs hch hc hv hr | literalBack hs hch hw hc hv hr | closeString hs hch hc hr
  | closeKey hs hch hc => exact ⟨fun _ => rfl, nofun⟩
  | rawChar hs hch =>
    refine ⟨fun hskip => ?_, fun hc => absurd hc (hquoted hs (.inl rfl))⟩
    rw [show p.currentState.skipsBlanks = false from hs.skipsBlanks.1] at hskip
    cases hskip
  | beginEsc hs hch =>
    refine ⟨fun hskip => ?_, fun hc => absurd hc (hquoted hs (.inl rfl))⟩
    rw [hs.skipsBlanks.2] at hskip
    cases hskip
  | escChar hs hch =>
    refine ⟨fun hskip => ?_, fun hc => absurd hc (hquoted hs (.inr rfl))⟩
    rw [hs.skipsBlanks.1] at hskip
    cases hskip
  | openKey hs hch => exact ⟨nofun, fun hc => absurd hc (hopen hs nofun nofun)⟩
  | endInBeforeKey hs hch | colon hs hch | commaObject hs hch =>
    exact ⟨fun _ => h.buffer (by rw [hs]; rfl), fun hc => absurd hc (hopen hs nofun nofun)⟩
  | commaArray hs hch => exact ⟨fun _ => h.buffer (by rw [hs]; rfl), fun _ => .inl rfl⟩
  | closeContainer hs hc hr => exact ⟨fun _ => h.buffer hs.skipsBlanks, nofun⟩
  | tooDeep | leafAtTop | literalInvalid | literalRefused | rawIllegal | escIllegal | stringRefused
  | illegal | closeRoot | closeRefused => trivial
  | literalEmpty | stringEmpty | keyEmpty | closeEmpty => trivial

theorem reached_ready {root : Container} {maxLevels : Option Nat} {chunks : List Str}
    {res : ParseResult} (h : parseChunks cc (Parser.init root maxLevels) chunks = .returned res p)
    (hec : res.ec = .moreDataNeeded) (hp : p.Expects role) : p.ReadyFor role := by
  have htidy : p.Tidy := by
    have hsat : (scan (step cc) (Parser.init root maxLevels) chunks.flatten).Sat Parser.Tidy
        fun _ _ => True :=
      scan_branch_inv (fun p ch hp => ⟨by simpa using hp.buffer, by simpa using hp.contexts⟩)
        (fun _ _ _ => tidy_branch) ⟨fun _ => rfl, fun _ => .inl rfl⟩ chunks.flatten
    rw [parseChunks_eq_parse] at h
    rcases returned_cases h with ⟨hmore, -⟩ | ⟨-, hne, -⟩
    · rw [hmore] at hsat
      exact hsat
    · exact absurd hec hne
  refine ⟨hp, htidy.buffer ?_, fun hc => ?_⟩
  · rw [hp.1]
    cases role <;> rfl
  · cases role with
    | key => rcases htidy.contexts hc with hs | hs <;> rw [hp.1] at hs <;> cases hs
    | value =>
      obtain ⟨top, rest, hc', -⟩ := hp.2 rfl
      rw [hc] at hc'
      cases hc'

theorem spelled_iff {b : Str} (hp : p.ReadyFor role) :
    escape s = some b ↔ ∃ q, p.Spells cc role b q ∧ p.Records role s q := by
  constructor
  · intro h
    obtain ⟨body, rfl, rfl⟩ := escape_eq_some.mp h
    exact spells_body cc hp body
  · rintro ⟨q, hspells, hrecords⟩
    obtain ⟨body, rfl⟩ := body_of_spells hp hspells
    obtain ⟨q', hspells', hrecords'⟩ := spells_body cc hp body
    obtain ⟨-, rfl⟩ := Outcome.returned.inj (hspells.closed.symm.trans hspells'.closed)
    rw [records_unique hp.1 hrecords hrecords']
    exact escape_bodyVal body

end

/-- A parser that has read some chunks and asks for more. -/
def Reached (cc : CharConv) (p : Parser) : Prop :=
  ∃ root maxLevels chunks res,
    parseChunks cc (Parser.init root maxLevels) chunks = .returned res p ∧ res.ec = .moreDataNeeded

theorem wrapString_eq_some {s t : Str} :
    wrapString s = some t ↔ ∃ b, escape s = some b ∧
      t = Delimiters.stringBeginEnd :: (b ++ [Delimiters.stringBeginEnd]) := by
  unfold wrapString
  cases escape s with
  | none => simp
  | some b => simp [eq_comm]

/-- **The string codec is a bijection** between the strings whose control bytes are newlines and
tabs and the texts the parser reads between quotes, the same for keys and for values. -/
theorem codec_bijective (cc : CharConv) :
    (∀ s : Str, (escape s).isSome = true ↔
      ∀ ch ∈ s, ch ≤ 0x1f → ch = newline ∨ ch = horizontalTab) ∧
    (∀ s t : Str, wrapString s = some t ↔ ∃ b, escape s = some b ∧
      t = Delimiters.stringBeginEnd :: (b ++ [Delimiters.stringBeginEnd])) ∧
    (∀ p role, Reached cc p → p.Expects role →
      (∀ s b, escape s = some b →
        wrapString s = some (Delimiters.stringBeginEnd :: (b ++ [Delimiters.stringBeginEnd])) ∧
          ∃ q, p.Spells cc role b q ∧ p.Records role s q) ∧
      (∀ b s q, p.Spells cc role b q → p.Records role s q → escape s = some b)) ∧
    (∀ p role p' role', Reached cc p → p.Expects role → Reached cc p' → p'.Expects role' →
      ∀ s b b' q q', p.Spells cc role b q → p.Records role s q →
        p'.Spells cc role' b' q' → p'.Records role' s q' → b = b') := by
  have hcodec : ∀ {p role s b}, Reached cc p → p.Expects role →
      (escape s = some b ↔ ∃ q, p.Spells cc role b q ∧ p.Records role s q) := by
    rintro p role s b ⟨root, maxLevels, chunks, res, h, hec⟩ hp
    exact spelled_iff (reached_ready h hec hp)
  refine ⟨fun s => ?_, fun s t => wrapString_eq_some, fun p role hreached hp =>
    ⟨fun s b hb => ⟨wrapString_eq_some.mpr ⟨b, hb, rfl⟩, (hcodec hreached hp).mp hb⟩,
      fun b s q hspells hrec => (hcodec hreached hp).mpr ⟨q, hspells, hrec⟩⟩,
    fun p role p' role' hreached hp hreached' hp' s b b' q q' hspells hrec hspells' hrec' => ?_⟩
  · rw [← Escapable, escapable_iff]
    exact forall₂_congr fun ch _ => supported_iff
  · have hb := (hcodec hreached hp).mpr ⟨q, hspells, hrec⟩
    have hb' := (hcodec hreached' hp').mpr ⟨q', hspells', hrec'⟩
    exact Option.some.inj (hb.symm.trans hb')

/-- The key of an `a` and a newline, behind an opening brace. -/
theorem codec_bijective_key :
    wrapString [0x61, 0x0a] = some [0x22, 0x61, 0x5c, 0x6e, 0x22] ∧
      ∃ p q, parse .binary (Parser.init .empty (some 1)) [0x7b] =
          .returned ⟨1, .moreDataNeeded, 1, 2⟩ p ∧
        p.Spells .binary .key [0x61, 0x5c, 0x6e] q ∧ p.Records .key [0x61, 0x0a] q := by
  obtain ⟨p, hp, hexpects⟩ : ∃ p, parse .binary (Parser.init .empty (some 1)) [0x7b] =
      .returned ⟨1, .moreDataNeeded, 1, 2⟩ p ∧ p.Expects .key := by
    refine ⟨_, rfl, ?_⟩
    exact ⟨rfl, nofun⟩
  have hreached : Reached .binary p :=
    ⟨.empty, some 1, [[0x7b]], _, (parseChunks_eq_parse ..).trans hp, rfl⟩
  obtain ⟨hwrap, q, hspells, hrec⟩ := ((codec_bijective .binary).2.2.1 p .key hreached hexpects).1
    [0x61, 0x0a] [0x61, 0x5c, 0x6e] rfl
  exact ⟨hwrap, p, q, hp, hspells, hrec⟩

end Jopp
