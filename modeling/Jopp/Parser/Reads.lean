import Jopp.Parser.Strict

/-!
# Jopp.Parser.Reads

What the strict machine does with the text of a document, by recursion on its derivation tree. On
a value it goes from state `value` to the state after an item, with the value stored in the
container around it, or it stops with `keyAlreadyExists` on the way (`runs_value`, `runs_items`);
which of the two happens is for `Value.load` to say. `runs_document` puts the root around it.
-/

namespace Jopp

open Resumable

variable {cc : CharConv} {lit : Str → Value → Prop} {p : Parser}

/-! ## Runs that end at a container or at a repeated key -/

/-- Before `u`, reading `w` leads from `s` to the place `f c` if the outcome is the container `c`,
and to `keyAlreadyExists` if there is none. -/
def Runs (cc : CharConv) (s : Parser) (w : Str) (outcome : Option Container)
    (f : Container → Parser) (u : Str) : Prop :=
  match outcome with
  | some c => Reads (strictStep cc) s w (f c) u
  | none => ∃ q n, scan (strictStep cc) s (w ++ u) = .stopped q (some .keyAlreadyExists) n

theorem Runs.after {s s' : Parser} {w w' u : Str} {outcome : Option Container}
    {f : Container → Parser} (h : Reads (strictStep cc) s w s' (w' ++ u))
    (h' : Runs cc s' w' outcome f u) : Runs cc s (w ++ w') outcome f u := by
  cases outcome with
  | some c => exact Reads.trans h h'
  | none =>
    obtain ⟨q, n, hstop⟩ := h'
    refine ⟨q, w.length + n, ?_⟩
    rw [List.append_assoc, h, hstop, Result.after_stopped]

theorem Runs.bind {s : Parser} {w w' u : Str} {outcome : Option Container}
    {f g : Container → Parser} {next : Container → Option Container}
    (h : Runs cc s w outcome f (w' ++ u))
    (h' : ∀ c, outcome = some c → Runs cc (f c) w' (next c) g u) :
    Runs cc s (w ++ w') (outcome.bind next) g u := by
  cases outcome with
  | some c => exact Runs.after h (h' c rfl)
  | none =>
    obtain ⟨q, n, hstop⟩ := h
    exact ⟨q, n, by rw [List.append_assoc]; exact hstop⟩

theorem Runs.single {s : Parser} {ch : Byte} {outcome : Option Container}
    {f : Container → Parser} {u : Str}
    (hok : ∀ c, outcome = some c → eat (strictStep cc) s ch = .ok (f c))
    (hstop : outcome = none →
      ∃ q, eat (strictStep cc) s ch = .error (q, some .keyAlreadyExists)) :
    Runs cc s [ch] outcome f u := by
  cases outcome with
  | some c => exact Reads.single (hok c rfl) u
  | none =>
    obtain ⟨q, hq⟩ := hstop rfl
    exact ⟨q, 1, scan_cons_error u hq⟩

/-! ## Blanks, strings and labels -/

theorem reads_blank {s : ParserState} (hs : s.skipsBlanks = true) {cs : List ParserContext} :
    ∀ (w : Str), (∀ ch ∈ w, isWhitespace ch = true) → ∀ u,
      Reads (strictStep cc) (p.enter s cs) w (p.enter s cs) u := by
  intro w
  induction w with
  | nil => exact fun _ u => Reads.refl _ u
  | cons ch w ih =>
    intro h u
    rw [List.forall_mem_cons] at h
    exact Reads.cons (eat_blank hs h.1) (ih h.2 u)

theorem reads_body {s escState : ParserState} (hs : Quoted s escState) {cs : List ParserContext} :
    ∀ (body : List StrChar) (w u : Str),
      Reads (strictStep cc) (p.reading s cs w) (bodyText body)
        (p.reading s cs (w ++ bodyVal body)) u := by
  intro body
  induction body with
  | nil =>
    intro w u
    show Reads _ _ [] (p.reading s cs (w ++ [])) u
    rw [List.append_nil]
    exact Reads.refl _ u
  | cons x body ih =>
    intro w u
    have hrest := ih (w ++ [x.val]) u
    have hval : w ++ bodyVal (x :: body) = w ++ [x.val] ++ bodyVal body := by
      simp [bodyVal]
    rw [hval]
    cases x with
    | raw ch h => exact Reads.cons (eat_raw hs h) hrest
    | escaped escChar val h =>
      exact Reads.cons (eat_backslash hs) (Reads.cons (eat_escaped hs h) hrest)

theorem reads_key (key : List StrChar) {c : Container} {rest : List ParserContext} (u : Str) :
    Reads (strictStep cc) (p.enter .beforeKey (⟨[], c⟩ :: rest)) (quotedText key)
      (p.enter .beforeValue (⟨bodyVal key, c⟩ :: rest)) u :=
  Reads.cons eat_key_open ((reads_body .key key [] _).trans (Reads.single eat_key_close u))

theorem reads_label {k : Kind} (label : Label k) {c : Container} {rest : List ParserContext}
    (u : Str) :
    Reads (strictStep cc) (p.enter k.start (⟨[], c⟩ :: rest)) label.text
      (p.enter .value (⟨label.key, c⟩ :: rest)) u := by
  cases label with
  | element before => exact reads_blank rfl before.val before.property u
  | member before key beforeColon afterColon =>
    have hcolon : Reads (strictStep cc) (p.enter .beforeValue (⟨bodyVal key, c⟩ :: rest))
        (Delimiters.nameSeparator :: afterColon.val)
        (p.enter .value (⟨bodyVal key, c⟩ :: rest)) u :=
      Reads.cons eat_colon (reads_blank rfl _ afterColon.property u)
    exact (((reads_blank rfl _ before.property _).trans (reads_key key _)).trans
      (reads_blank rfl _ beforeColon.property _)).trans hcolon

theorem reads_literal {cs : List ParserContext} :
    ∀ (w : Str), (∀ ch ∈ w, isPlain ch = true) → ∀ (w₀ u : Str),
      Reads (strictStep cc) (p.reading .literal cs w₀) w (p.reading .literal cs (w₀ ++ w)) u := by
  intro w
  induction w with
  | nil =>
    intro _ w₀ u
    rw [List.append_nil]
    exact Reads.refl _ u
  | cons ch w ih =>
    intro h w₀ u
    rw [List.forall_mem_cons] at h
    have hrest := ih h.2 (w₀ ++ [ch]) u
    rw [List.append_assoc] at hrest
    exact Reads.cons (eat_literal_char h.1) hrest

/-! ## Values -/

/-- The continuation starts with a byte that ends a literal. -/
def EndsValue (u : Str) : Prop := ∃ ch u', u = ch :: u' ∧ endsLiteral ch

theorem endsValue_cons {ch : Byte} (h : endsLiteral ch) (u : Str) : EndsValue (ch :: u) :=
  ⟨ch, u, rfl, h⟩

theorem endsValue_after (after : Blank) {ch : Byte} (h : endsLiteral ch) (u : Str) :
    EndsValue (after.val ++ ch :: u) := by
  obtain ⟨w, hw⟩ := after
  cases w with
  | nil => exact endsValue_cons h u
  | cons ch' w => exact endsValue_cons (.inr (.inr (.inr (hw ch' (List.mem_cons_self ..))))) _

theorem endsLiteral_comma : endsLiteral Delimiters.valueSeparator := .inl rfl

theorem endsLiteral_closer (k : Kind) : endsLiteral k.closer := by
  cases k
  · exact .inr (.inl rfl)
  · exact .inr (.inr (.inl rfl))

theorem skipsBlanks_afterItem (k : Kind) : k.afterItem.skipsBlanks = true := by
  cases k <;> rfl

theorem skipsBlanks_start (k : Kind) : k.start.skipsBlanks = true := by
  cases k <;> rfl

theorem kind_empty (k : Kind) : k.empty.kind = k := by
  cases k <;> rfl

theorem makeValue_load {w : Str} {val : Value} (h : makeValue cc w = some val) :
    val.load = some val := by
  rcases makeValue_cases h with ⟨-, rfl⟩ | ⟨-, rfl⟩ | ⟨-, rfl⟩ | ⟨x, -, rfl⟩ <;> rfl

theorem loadMembers_cons (c : Container) (key : Str) (v : Value) (ms : List (Str × Value)) :
    loadMembers c ((key, v) :: ms) =
      (v.load.bind (c.accept key)).bind fun c' => loadMembers c' ms := by
  simp only [loadMembers]
  cases v.load with
  | none => rfl
  | some v' => cases h : c.accept key v' <;> simp [h]

theorem wrap_depth (k : Kind) (entries : List (Str × Value)) :
    (k.wrap entries).depth = memberDepth entries + 1 := by
  have harr : ∀ entries : List (Str × Value),
      itemDepth (entries.map Prod.snd) = memberDepth entries := by
    intro entries
    induction entries with
    | nil => rfl
    | cons e entries ih => simp only [List.map_cons, itemDepth, memberDepth, ih]
  cases k with
  | array => rw [Kind.wrap, Value.depth, harr]
  | object => rw [Kind.wrap, Value.depth]

theorem reads_word {w : Str} (hne : w ≠ []) (hplain : ∀ ch ∈ w, isPlain ch = true)
    {top : ParserContext} {rest : List ParserContext} (u : Str) :
    Reads (strictStep cc) (p.enter .value (top :: rest)) w
      (p.reading .literal (top :: rest) w) u := by
  cases w with
  | nil => exact absurd rfl hne
  | cons x w =>
    rw [List.forall_mem_cons] at hplain
    exact Reads.cons (eat_literal_first hplain.1) (reads_literal w hplain.2 [x] u)

theorem reads_string (body : List StrChar) {top : ParserContext} {rest : List ParserContext}
    (u : Str) :
    Reads (strictStep cc) (p.enter .value (top :: rest))
      (Delimiters.stringBeginEnd :: bodyText body)
      (p.reading .stringValue (top :: rest) (bodyVal body)) u :=
  Reads.cons eat_string_open (reads_body .stringValue body [] u)

theorem runs_literal {w : Str} {val : Value} (h : makeValue cc w = some val ∧ w ≠ [] ∧
    ∀ ch ∈ w, isPlain ch = true) {key : Str} {c : Container} {rest : List ParserContext} {u : Str}
    (hu : EndsValue u) :
    Runs cc (p.enter .value (⟨key, c⟩ :: rest)) w (val.load.bind (c.accept key))
      (fun c' => p.enter c.kind.afterItem (⟨[], c'⟩ :: rest)) u := by
  obtain ⟨hval, hne, hplain⟩ := h
  obtain ⟨ch, u', rfl, hch⟩ := hu
  rw [makeValue_load hval, Option.bind_some, ← List.append_nil w]
  refine Runs.after (reads_word hne hplain _) ?_
  cases h : c.accept key val with
  | some c' =>
    have hend := eat_literal_end (p := p) hval h hch rest
    rw [accept_kind h] at hend
    exact Reads.congr hend u'
  | none => exact ⟨_, 1, scan_cons_error u' (eat_literal_refused hval h hch)⟩

theorem runs_string (body : List StrChar) {key : Str} {c : Container}
    {rest : List ParserContext} (u : Str) :
    Runs cc (p.enter .value (⟨key, c⟩ :: rest)) (quotedText body)
      (c.accept key (.string (bodyVal body)))
      (fun c' => p.enter c.kind.afterItem (⟨[], c'⟩ :: rest)) u := by
  refine Runs.after (reads_string body ([Delimiters.stringBeginEnd] ++ u))
    (Runs.single (fun c' h => ?_) fun h => ⟨_, eat_string_refused h⟩)
  rw [← accept_kind h]
  exact eat_string_close h

theorem runs_container {k : Kind} {text : Str} {entries : List (Str × Value)} {key : Str}
    {c : Container} {rest : List ParserContext} {u : Str}
    (hroom : p.Room (rest.length + 2))
    (h : Runs cc (p.enter k.start (⟨[], k.empty⟩ :: ⟨key, c⟩ :: rest)) text
      (loadMembers k.empty entries)
      (fun inner => p.enter k.afterItem (⟨[], inner⟩ :: ⟨key, c⟩ :: rest)) (k.closer :: u)) :
    Runs cc (p.enter .value (⟨key, c⟩ :: rest)) (k.opener :: (text ++ [k.closer]))
      ((k.wrap entries).load.bind (c.accept key))
      (fun c' => p.enter c.kind.afterItem (⟨[], c'⟩ :: rest)) u := by
  have hopen : Reads (strictStep cc) (p.enter .value (⟨key, c⟩ :: rest)) [k.opener]
      (p.enter k.start (⟨[], k.empty⟩ :: ⟨key, c⟩ :: rest)) (text ++ [k.closer] ++ u) :=
    Reads.single (eat_open k hroom) _
  have hload : (k.wrap entries).load.bind (c.accept key) =
      (loadMembers k.empty entries).bind fun inner => c.accept key (toValue inner) := by
    rw [load_wrap]
    cases loadMembers k.empty entries <;> rfl
  rw [hload]
  refine Runs.after (w := [k.opener]) hopen (Runs.bind h fun inner hinner => ?_)
  have hkind : inner.kind = k := (loadMembers_kind hinner).trans (kind_empty k)
  subst hkind
  refine Runs.single (fun c' h => ?_) fun h => ⟨_, eat_close_refused h⟩
  rw [← accept_kind h]
  exact eat_close h

theorem runs_comma {k : Kind} (label : Label k) {text : Str} {outcome : Option Container}
    (after : Blank) {c : Container} (hk : c.kind = k) {rest : List ParserContext} {u : Str}
    (h : Runs cc (p.enter .value (⟨label.key, c⟩ :: rest)) text outcome
      (fun c' => p.enter c.kind.afterItem (⟨[], c'⟩ :: rest))
      (after.val ++ Delimiters.valueSeparator :: u)) :
    Runs cc (p.enter k.start (⟨[], c⟩ :: rest))
      (label.text ++ text ++ (after.val ++ [Delimiters.valueSeparator])) outcome
      (fun c' => p.enter k.start (⟨[], c'⟩ :: rest)) u := by
  have hcont : after.val ++ Delimiters.valueSeparator :: u =
      after.val ++ [Delimiters.valueSeparator] ++ u := by simp
  rw [hcont, hk] at h
  rw [← Option.bind_fun_some outcome]
  refine Runs.bind (Runs.after (reads_label label _) h) fun c' _ => ?_
  exact (reads_blank (skipsBlanks_afterItem k) after.val after.property _).trans
    (Reads.single (eat_comma k) u)

mutual

theorem runs_value (hlit : PlainLiterals cc lit) :
    ∀ (v : Cst lit) (key : Str) (c : Container) (rest : List ParserContext) {u : Str},
      EndsValue u → p.Room (rest.length + 1 + v.raw.depth) →
      Runs cc (p.enter .value (⟨key, c⟩ :: rest)) v.text (v.raw.load.bind (c.accept key))
        (fun c' => p.enter c.kind.afterItem (⟨[], c'⟩ :: rest)) u
  | .literal w val h, _, _, _, _, hu, _ => runs_literal (hlit w val h) hu
  | .string body, _, _, _, u, _, _ => runs_string body u
  | .container k items, key, c, rest, u, _, hroom => by
    simp only [Cst.raw, wrap_depth] at hroom
    refine runs_container (hroom.mono (by omega)) ?_
    refine runs_items hlit items _ _ (kind_empty k) (hroom.mono ?_)
    rw [List.length_cons]
    omega

theorem runs_items (hlit : PlainLiterals cc lit) :
    ∀ {k : Kind} (items : Items lit k) {c : Container} (rest : List ParserContext) (u : Str),
      c.kind = k → p.Room (rest.length + 1 + memberDepth items.entries) →
      Runs cc (p.enter k.start (⟨[], c⟩ :: rest)) items.text (loadMembers c items.entries)
        (fun c' => p.enter k.afterItem (⟨[], c'⟩ :: rest)) (k.closer :: u)
  | k, .close gap, c, rest, u, hk, _ => by
    have hgap : Reads (strictStep cc) (p.enter k.start (⟨[], c⟩ :: rest)) gap.val
        (p.enter k.start (⟨[], c⟩ :: rest)) ([] ++ k.closer :: u) :=
      reads_blank (skipsBlanks_start k) gap.val gap.property _
    have hend := hgap.trans (Reads.congr (eat_close_start k hk) u)
    rw [List.append_nil] at hend
    exact hend
  | k, .last label value after, c, rest, u, hk, hroom => by
    simp only [Items.entries, memberDepth] at hroom
    simp only [Items.entries, Items.text, loadMembers_cons]
    have hvalue := runs_value hlit value label.key c rest
      (endsValue_after after (endsLiteral_closer k) u) (hroom.mono (by omega))
    refine Runs.bind (Runs.after (reads_label label _) hvalue) fun c' _ => ?_
    rw [hk]
    exact reads_blank (skipsBlanks_afterItem k) after.val after.property _
  | k, .more label value after more, c, rest, u, hk, hroom => by
    simp only [Items.entries, memberDepth] at hroom
    simp only [Items.entries, loadMembers_cons]
    have hvalue := runs_value hlit value label.key c rest
      (endsValue_after after endsLiteral_comma (more.text ++ k.closer :: u))
      (hroom.mono (by omega))
    have htext : (Items.more label value after more).text =
        label.text ++ value.text ++ (after.val ++ [Delimiters.valueSeparator]) ++ more.text := by
      simp [Items.text]
    rw [htext]
    refine Runs.bind (runs_comma label after hk hvalue) fun c' hc' => ?_
    refine runs_items hlit more _ _ ?_ (hroom.mono (by omega))
    obtain ⟨v, -, hacc⟩ := Option.bind_eq_some_iff.mp hc'
    rw [accept_kind hacc, hk]

end

/-! ## Documents -/

/-- The root container: the document is read to its end, or up to a repeated key. -/
theorem runs_document (hlit : PlainLiterals cc lit) (d : Document lit) {root : Container}
    {maxLevels : Option Nat} (hroom : (Parser.init root maxLevels).Room d.raw.depth) (u : Str) :
    (∀ c, d.raw.load = some (toValue c) →
      ∃ q, scan (strictStep cc) (Parser.init root maxLevels) (d.text ++ u) =
        .stopped q (some .completed) d.text.length ∧ q.root = c) ∧
    (d.raw.load = none →
      ∃ q n, scan (strictStep cc) (Parser.init root maxLevels) (d.text ++ u) =
        .stopped q (some .keyAlreadyExists) n) := by
  have hinit : Parser.init root maxLevels = (Parser.init root maxLevels).enter .value [] := rfl
  have hload : d.raw.load = (loadMembers d.kind.empty d.items.entries).map toValue :=
    load_wrap d.kind d.items.entries
  unfold Document.raw at hroom
  rw [wrap_depth] at hroom
  have hitems := runs_items hlit (p := Parser.init root maxLevels) d.items [] u
    (kind_empty d.kind) (hroom.mono (by simp only [List.length_nil]; omega))
  have hopen : Reads (strictStep cc) (Parser.init root maxLevels)
      (d.before.val ++ [d.kind.opener])
      ((Parser.init root maxLevels).enter d.kind.start [⟨[], d.kind.empty⟩])
      (d.items.text ++ d.kind.closer :: u) := by
    rw [hinit]
    exact (reads_blank rfl _ d.before.property _).trans
      (Reads.single (eat_open d.kind (hroom.mono (by simp only [List.length_nil]; omega))) _)
  have htext : d.text ++ u = d.before.val ++ [d.kind.opener] ++
      (d.items.text ++ d.kind.closer :: u) := by
    simp [Document.text]
  rw [htext, hload, hopen]
  cases h : loadMembers d.kind.empty d.items.entries with
  | none =>
    rw [h] at hitems
    obtain ⟨q, n, hstop⟩ := hitems
    refine ⟨fun c hc => (by cases hc),
      fun _ => ⟨q, (d.before.val ++ [d.kind.opener]).length + n, ?_⟩⟩
    rw [hstop]
    rfl
  | some c =>
    rw [h] at hitems
    refine ⟨fun c' hc => ?_, fun hn => (by cases hn)⟩
    obtain rfl : c = c' := by
      have hval : toValue c = toValue c' := Option.some.inj hc
      cases c <;> cases c' <;> cases hval <;> rfl
    refine ⟨{ (Parser.init root maxLevels).enter d.kind.afterItem [] with root := c }, ?_, rfl⟩
    have hread : scan (strictStep cc) _ (d.items.text ++ d.kind.closer :: u) = _ := hitems
    rw [hread, scan_cons_error u (eat_close_root d.kind)]
    simp only [Result.after_stopped, Document.text, List.length_append, List.length_cons,
      List.length_nil]
    congr 1
    omega

/-! ## Beginnings of documents -/

theorem reads_done (hlit : PlainLiterals cc lit) {k : Kind} {rest : List ParserContext} :
    ∀ (done : List (Done lit k)) {c c' : Container} (u : Str), c.kind = k →
      p.Room (rest.length + 1 + memberDepth (done.map Done.entry)) →
      loadMembers c (done.map Done.entry) = some c' →
      Reads (strictStep cc) (p.enter k.start (⟨[], c⟩ :: rest)) (done.flatMap Done.text)
        (p.enter k.start (⟨[], c'⟩ :: rest)) u := by
  intro done
  induction done with
  | nil =>
    intro c c' u _ _ h
    cases h
    exact Reads.refl _ u
  | cons item done ih =>
    intro c c' u hk hroom h
    simp only [List.map_cons, Done.entry, memberDepth] at hroom
    simp only [List.map_cons, Done.entry, loadMembers_cons] at h
    obtain ⟨c₁, hc₁, hrest⟩ := Option.bind_eq_some_iff.mp h
    have hvalue := runs_value hlit item.value (p := p) item.label.key c rest
      (endsValue_after item.after endsLiteral_comma (done.flatMap Done.text ++ u))
      (hroom.mono (by omega))
    have hitem := runs_comma item.label item.after hk hvalue
    rw [hc₁] at hitem
    have hk₁ : c₁.kind = k := by
      obtain ⟨v, -, hacc⟩ := Option.bind_eq_some_iff.mp hc₁
      rw [accept_kind hacc, hk]
    have htext : (item :: done).flatMap Done.text = item.label.text ++ item.value.text ++
        (item.after.val ++ [Delimiters.valueSeparator]) ++ done.flatMap Done.text := by
      simp [Done.text]
    rw [htext]
    exact Reads.trans hitem (ih u hk₁ (hroom.mono (by omega)) hrest)

/-- An open container leads to the place of its next value. -/
theorem reads_frame (hlit : PlainLiterals cc lit) (f : Frame lit) {cs : List ParserContext}
    {c : Container} (u : Str) (hroom : p.Room (cs.length + 1 + memberDepth f.entries))
    (hload : loadMembers f.kind.empty f.entries = some c) :
    Reads (strictStep cc) (p.enter .value cs) f.text
      (p.enter .value (⟨f.label.key, c⟩ :: cs)) u :=
  Reads.cons (eat_open f.kind (hroom.mono (by omega)))
    ((reads_done hlit f.done _ (kind_empty f.kind) hroom hload).trans (reads_label f.label u))

theorem reads_frames (hlit : PlainLiterals cc lit) {d : Nat} :
    ∀ (fs : List (Frame lit)) (cs : List ParserContext),
      p.Room (cs.length + framesDepth d fs) →
      (∀ f ∈ fs, (loadMembers f.kind.empty f.entries).isSome = true) →
      ∃ cs', cs'.length = cs.length + fs.length ∧ p.Room (cs'.length + d) ∧
        ∀ u, Reads (strictStep cc) (p.enter .value cs) (fs.flatMap Frame.text)
          (p.enter .value cs') u := by
  intro fs
  induction fs with
  | nil => exact fun cs hroom _ => ⟨cs, rfl, hroom, fun u => Reads.refl _ u⟩
  | cons f fs ih =>
    intro cs hroom hload
    rw [List.forall_mem_cons] at hload
    obtain ⟨c, hc⟩ := Option.isSome_iff_exists.mp hload.1
    simp only [framesDepth] at hroom
    obtain ⟨cs', hlen, hroom', hreads⟩ := ih (⟨f.label.key, c⟩ :: cs)
      (hroom.mono (by simp only [List.length_cons]; omega)) hload.2
    refine ⟨cs', by simp only [List.length_cons] at hlen ⊢; omega, hroom', fun u => ?_⟩
    exact Reads.trans (reads_frame hlit f _ (hroom.mono (by omega)) hc) (hreads u)

/-! ## Refused members -/

/-- A value whose key is taken ends the run, and the container keeps what it has. -/
theorem refused_value (hlit : PlainLiterals cc lit) (v : Cst lit) {key : Str} {c : Container}
    {rest : List ParserContext} {v' : Value} (hload : v.raw.load = some v')
    (hacc : c.accept key v' = none) {u : Str} (hu : v.isLiteral = true → EndsValue u)
    (hroom : p.Room (rest.length + 1 + v.raw.depth)) :
    ∃ q, scan (strictStep cc) (p.enter .value (⟨key, c⟩ :: rest)) (v.text ++ u) =
        .stopped q (some .keyAlreadyExists) (v.text.length + v.lag) ∧
      q.contexts = ⟨[], c⟩ :: rest := by
  cases v with
  | literal w val h =>
    obtain ⟨ch, u', rfl, hch⟩ := hu rfl
    obtain ⟨hval, hne, hplain⟩ := hlit w val h
    have hsame : val = v' := by
      have := makeValue_load hval
      rw [Cst.raw] at hload
      rw [hload] at this
      exact (Option.some.inj this).symm
    subst hsame
    refine ⟨p.reading .literal (⟨[], c⟩ :: rest) w, ?_, rfl⟩
    have hread : scan (strictStep cc) (p.enter .value (⟨key, c⟩ :: rest)) (w ++ ch :: u') = _ :=
      reads_word hne hplain (ch :: u')
    rw [Cst.text, hread, scan_cons_error u' (eat_literal_refused hval hacc hch)]
    rfl
  | string body =>
    cases hload
    refine ⟨p.reading .stringValue (⟨[], c⟩ :: rest) (bodyVal body), ?_, rfl⟩
    have hread : scan (strictStep cc) (p.enter .value (⟨key, c⟩ :: rest))
        ((Delimiters.stringBeginEnd :: bodyText body) ++ Delimiters.stringBeginEnd :: u) = _ :=
      reads_string body (Delimiters.stringBeginEnd :: u)
    have htext : (Cst.string body : Cst lit).text ++ u =
        (Delimiters.stringBeginEnd :: bodyText body) ++ Delimiters.stringBeginEnd :: u := by
      simp [Cst.text, quotedText]
    rw [htext, hread, scan_cons_error u (eat_string_refused hacc)]
    simp [Cst.text, quotedText, Cst.lag, Cst.isLiteral]
  | container k items =>
    simp only [Cst.raw, wrap_depth] at hroom
    simp only [Cst.raw, load_wrap, Option.map_eq_some_iff] at hload
    obtain ⟨inner, hinner, rfl⟩ := hload
    have hkind : inner.kind = k := (loadMembers_kind hinner).trans (kind_empty k)
    have hitems := runs_items hlit (p := p) items (⟨key, c⟩ :: rest) u
      (kind_empty k) (hroom.mono (by simp only [List.length_cons]; omega))
    rw [hinner] at hitems
    have hread : Reads (strictStep cc) (p.enter .value (⟨key, c⟩ :: rest))
        (k.opener :: items.text) (p.enter k.afterItem (⟨[], inner⟩ :: ⟨key, c⟩ :: rest))
        (k.closer :: u) :=
      Reads.cons (eat_open k (hroom.mono (by simp only [List.length_cons]; omega))) hitems
    subst hkind
    refine ⟨p.enter inner.kind.afterItem (⟨[], c⟩ :: rest), ?_, rfl⟩
    have htext : (Cst.container inner.kind items).text ++ u =
        (inner.kind.opener :: items.text) ++ inner.kind.closer :: u := by
      simp [Cst.text]
    rw [htext, hread, scan_cons_error u (eat_close_refused hacc)]
    simp [Cst.text, Cst.lag, Cst.isLiteral]

end Jopp
