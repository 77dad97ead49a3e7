import Jopp.Parser.Complete
import Jopp.Parser.Stack

/-!
# Jopp.Parser.Sound

What the parser has read when it returns `completed`. `Demands` says, for each state and the kinds
of the open containers, what the rest of the input must look like for the whole to be a document;
every step of the strict machine carries it back over the byte it reads (`branch_carries`), and
the completing step starts it. So the strict machine completes on documents only (`strict_sound`).
-/

namespace Jopp

open Resumable

/-! ## Rests of documents -/

section

variable (lit : Str → Value → Prop)

/-- The rest of a container of kind `k` from where an item may start; `L` describes what follows
the container. -/
def ItemsRest (k : Kind) (L : Str → Prop) (w : Str) : Prop :=
  ∃ (items : Items lit k) (r : Str), w = items.text ++ k.closer :: r ∧ L r

/-- The rest of a container from behind an item. -/
def AfterRest (k : Kind) (L : Str → Prop) (w : Str) : Prop :=
  ∃ (after : Blank) (w' : Str), w = after.val ++ w' ∧
    ((∃ r, w' = k.closer :: r ∧ L r) ∨
      ∃ r, w' = Delimiters.valueSeparator :: r ∧ ItemsRest lit k L r)

/-- The rest of an object from behind the colon of a member. -/
def ValueRest (L : Str → Prop) (w : Str) : Prop :=
  ∃ (before : Blank) (v : Cst lit) (r : Str), w = before.val ++ (v.text ++ r) ∧
    AfterRest lit .object L r

/-- The rest of an object from behind the key of a member. -/
def ColonRest (L : Str → Prop) (w : Str) : Prop :=
  ∃ (gap : Blank) (r : Str), w = gap.val ++ Delimiters.nameSeparator :: r ∧ ValueRest lit L r

/-- The rest of a string, and what follows it. -/
def QuotedRest (L : Str → Prop) (w : Str) : Prop :=
  ∃ (body : List StrChar) (r : Str), w = bodyText body ++ Delimiters.stringBeginEnd :: r ∧ L r

/-- The rest of a string from behind a backslash. -/
def EscRest (L : Str → Prop) (w : Str) : Prop :=
  ∃ (escChar val : Byte) (w' : Str), unescape escChar = some val ∧ w = escChar :: w' ∧
    QuotedRest L w'

/-- The rest of a literal that starts with `buffer`. -/
def LiteralRest (buffer : Str) (L : Str → Prop) (w : Str) : Prop :=
  ∃ (w₁ : Str) (v : Value) (r : Str), w = w₁ ++ r ∧ lit (buffer ++ w₁) v ∧ L r

/-- What follows a container inside containers of the given kinds. -/
def Up : List Kind → Str → Prop
  | [], w => w = []
  | k :: ks, w => AfterRest lit k (Up ks) w

/-- The rest in the given state, inside a container of kind `k`. -/
def Inside (s : ParserState) (buffer : Str) (k : Kind) (L : Str → Prop) (w : Str) : Prop :=
  match s with
  | .value =>
    match k with
    | .array => ItemsRest lit .array L w
    | .object => ValueRest lit L w
  | .literal => LiteralRest lit buffer (AfterRest lit k L) w
  | .stringValue => QuotedRest (AfterRest lit k L) w
  | .stringValueEscSeq => EscRest (AfterRest lit k L) w
  | .beforeKey => ItemsRest lit .object L w
  | .key => QuotedRest (ColonRest lit L) w
  | .keyEscSeq => EscRest (ColonRest lit L) w
  | .beforeValue => ColonRest lit L w
  | .afterValueObject => AfterRest lit .object L w
  | .afterValueArray => AfterRest lit .array L w

def Parser.kinds (p : Parser) : List Kind := p.contexts.map fun c => c.value.kind

/-- What the rest of the input must be for the whole to be a document. -/
def Demands (p : Parser) (w : Str) : Prop :=
  match p.kinds with
  | [] => p.currentState = .value ∧ ∃ d : Document lit, w = d.text
  | k :: ks => Inside lit p.currentState p.buffer k (Up lit ks) w

end

variable {lit : Str → Value → Prop} {k : Kind} {L : Str → Prop} {ch : Byte} {w r : Str}

/-! ## How rests grow to the left -/

def Blank.cons (ch : Byte) (h : isWhitespace ch = true) (gap : Blank) : Blank :=
  ⟨ch :: gap.val, List.forall_mem_cons.mpr ⟨h, gap.property⟩⟩

theorem label_blank (h : isWhitespace ch = true) (label : Label k) :
    ∃ label' : Label k, label'.text = ch :: label.text := by
  cases label with
  | element before => exact ⟨.element (before.cons ch h), rfl⟩
  | member before key beforeColon afterColon =>
    exact ⟨.member (before.cons ch h) key beforeColon afterColon, rfl⟩

theorem ItemsRest.blank (h : isWhitespace ch = true) (hw : ItemsRest lit k L w) :
    ItemsRest lit k L (ch :: w) := by
  obtain ⟨items, r, rfl, hr⟩ := hw
  cases items with
  | close gap => exact ⟨.close (gap.cons ch h), r, rfl, hr⟩
  | last label value after =>
    obtain ⟨label', hlabel⟩ := label_blank h label
    exact ⟨.last label' value after, r, by simp [Items.text, hlabel], hr⟩
  | more label value after rest =>
    obtain ⟨label', hlabel⟩ := label_blank h label
    exact ⟨.more label' value after rest, r, by simp [Items.text, hlabel], hr⟩

theorem AfterRest.blank (h : isWhitespace ch = true) (hw : AfterRest lit k L w) :
    AfterRest lit k L (ch :: w) := by
  obtain ⟨after, w', rfl, hw'⟩ := hw
  exact ⟨after.cons ch h, w', rfl, hw'⟩

theorem ValueRest.blank (h : isWhitespace ch = true) (hw : ValueRest lit L w) :
    ValueRest lit L (ch :: w) := by
  obtain ⟨before, v, r, rfl, hr⟩ := hw
  exact ⟨before.cons ch h, v, r, rfl, hr⟩

theorem ColonRest.blank (h : isWhitespace ch = true) (hw : ColonRest lit L w) :
    ColonRest lit L (ch :: w) := by
  obtain ⟨gap, r, rfl, hr⟩ := hw
  exact ⟨gap.cons ch h, r, rfl, hr⟩

theorem AfterRest.closer (h : L r) : AfterRest lit k L (k.closer :: r) :=
  ⟨Blank.empty, _, rfl, .inl ⟨r, rfl, h⟩⟩

theorem AfterRest.comma (h : ItemsRest lit k L r) :
    AfterRest lit k L (Delimiters.valueSeparator :: r) :=
  ⟨Blank.empty, _, rfl, .inr ⟨r, rfl, h⟩⟩

theorem ItemsRest.closer (h : L r) : ItemsRest lit k L (k.closer :: r) :=
  ⟨.close Blank.empty, r, rfl, h⟩

theorem AfterRest.of_closer (h : AfterRest lit k L (k.closer :: r)) : L r := by
  have hblank : isWhitespace k.closer = false := by cases k <;> rfl
  have hcomma : k.closer ≠ Delimiters.valueSeparator := by cases k <;> decide
  obtain ⟨⟨gap, hgap⟩, w', heq, hw'⟩ := h
  cases gap with
  | cons ch gap =>
    cases heq
    rw [hgap k.closer (List.mem_cons_self ..)] at hblank
    cases hblank
  | nil =>
    rcases hw' with ⟨r', rfl, hr⟩ | ⟨r', rfl, -⟩
    · cases heq
      exact hr
    · exact absurd (List.cons.inj heq).1 hcomma

theorem ItemsRest.item (label : Label k) (v : Cst lit) (h : AfterRest lit k L r) :
    ItemsRest lit k L (label.text ++ (v.text ++ r)) := by
  obtain ⟨after, w', rfl, ⟨r', rfl, hr⟩ | ⟨r', rfl, items, r'', rfl, hr⟩⟩ := h
  · exact ⟨.last label v after, r', by simp [Items.text], hr⟩
  · exact ⟨.more label v after items, r'', by simp [Items.text], hr⟩

theorem Inside.value (buffer : Str) (v : Cst lit) (h : AfterRest lit k L r) :
    Inside lit .value buffer k L (v.text ++ r) := by
  cases k with
  | array => exact ItemsRest.item (.element Blank.empty) v h
  | object => exact ⟨Blank.empty, v, r, rfl, h⟩

theorem Inside.opener (buffer : Str) {k' : Kind} (h : ItemsRest lit k' (AfterRest lit k L) w) :
    Inside lit .value buffer k L (k'.opener :: w) := by
  obtain ⟨items, r, rfl, hr⟩ := h
  have htext : k'.opener :: (items.text ++ k'.closer :: r) =
      (Cst.container k' items).text ++ r := by simp [Cst.text]
  rw [htext]
  exact Inside.value buffer _ hr

theorem document_of_items {k' : Kind} (h : ItemsRest lit k' (Up lit []) w) :
    ∃ d : Document lit, k'.opener :: w = d.text := by
  obtain ⟨items, r, rfl, hr⟩ := h
  obtain rfl : r = [] := hr
  exact ⟨⟨Blank.empty, k', items⟩, rfl⟩

theorem QuotedRest.raw (h : charShouldBeEscaped ch = false) (hw : QuotedRest L w) :
    QuotedRest L (ch :: w) := by
  obtain ⟨body, r, rfl, hr⟩ := hw
  exact ⟨.raw ch h :: body, r, rfl, hr⟩

theorem QuotedRest.backslash (hw : EscRest L w) : QuotedRest L (beginEscSeq :: w) := by
  obtain ⟨escChar, val, w', h, rfl, body, r, rfl, hr⟩ := hw
  exact ⟨.escaped escChar val h :: body, r, rfl, hr⟩

theorem ItemsRest.member (h : QuotedRest (ColonRest lit L) w) :
    ItemsRest lit .object L (Delimiters.stringBeginEnd :: w) := by
  obtain ⟨key, r, rfl, gap, r', rfl, before, v, r'', rfl, hr⟩ := h
  have htext : Delimiters.stringBeginEnd :: (bodyText key ++ Delimiters.stringBeginEnd ::
      (gap.val ++ Delimiters.nameSeparator :: (before.val ++ (v.text ++ r'')))) =
        (Label.member Blank.empty key gap before).text ++ (v.text ++ r'') := by
    simp [Label.text, quotedText, Blank.empty]
  rw [htext]
  exact ItemsRest.item _ v hr

theorem Inside.blank {s : ParserState} {buffer : Str} (hs : s.skipsBlanks = true)
    (h : isWhitespace ch = true) (hw : Inside lit s buffer k L w) :
    Inside lit s buffer k L (ch :: w) := by
  cases s with
  | value => cases k with
    | array => exact ItemsRest.blank h hw
    | object => exact ValueRest.blank h hw
  | beforeKey => exact ItemsRest.blank h hw
  | beforeValue => exact ColonRest.blank h hw
  | afterValueObject => exact AfterRest.blank h hw
  | afterValueArray => exact AfterRest.blank h hw
  | _ => cases hs

theorem inside_quoted (lit : Str → Value → Prop) {s escState : ParserState}
    (hs : Quoted s escState) (k : Kind) (L : Str → Prop) :
    ∃ D : Str → Prop, ∀ buffer w, (Inside lit s buffer k L w ↔ QuotedRest D w) ∧
      (Inside lit escState buffer k L w ↔ EscRest D w) := by
  cases hs with
  | stringValue => exact ⟨AfterRest lit k L, fun _ _ => ⟨Iff.rfl, Iff.rfl⟩⟩
  | key => exact ⟨ColonRest lit L, fun _ _ => ⟨Iff.rfl, Iff.rfl⟩⟩

theorem inside_afterItem {buffer : Str} :
    Inside lit k.afterItem buffer k L w ↔ AfterRest lit k L w := by
  cases k <;> exact Iff.rfl

theorem inside_closes {s : ParserState} {buffer : Str} (hs : Closes s ch) (h : L w) :
    Inside lit s buffer k L (ch :: w) := by
  cases hs with
  | object => exact AfterRest.closer (k := .object) h
  | array => exact AfterRest.closer (k := .array) h

/-! ## Between bytes -/

/-- The state fits the kinds of the open containers. -/
def Matches (s : ParserState) : List Kind → Prop
  | [] => s = .value
  | k :: _ => (s.inObject = true → k = .object) ∧ (s = .afterValueArray → k = .array)

structure Parser.Consistent (p : Parser) : Prop where
  stack : Matches p.currentState p.kinds
  buffer : p.currentState.skipsBlanks = true → p.buffer = []

theorem Matches.free {s : ParserState} {ks : List Kind} (hne : ks ≠ []) (hin : s.inObject = false)
    (harr : s ≠ .afterValueArray) : Matches s ks := by
  cases ks with
  | nil => exact absurd rfl hne
  | cons k ks =>
    refine ⟨fun h => ?_, fun h => absurd h harr⟩
    rw [hin] at h
    cases h

theorem matches_value (ks : List Kind) : Matches .value ks := by
  cases ks with
  | nil => rfl
  | cons k ks => exact Matches.free (List.cons_ne_nil k ks) rfl (by decide)

theorem matches_start (k : Kind) (ks : List Kind) : Matches k.start (k :: ks) := by
  cases k with
  | array => exact matches_value _
  | object => exact ⟨fun _ => rfl, fun h => by cases h⟩

theorem matches_afterItem (k : Kind) (ks : List Kind) : Matches k.afterItem (k :: ks) := by
  cases k with
  | array => exact ⟨fun h => (by cases h), fun _ => rfl⟩
  | object => exact ⟨fun _ => rfl, fun h => by cases h⟩

theorem Matches.ne_nil {s : ParserState} {ks : List Kind} (h : Matches s ks) (hs : s ≠ .value) :
    ks ≠ [] := by
  rintro rfl
  exact hs h

section

variable {p q : Parser} {w' : Str}

theorem Parser.Consistent.noText {s : ParserState} (h : p.Consistent) (hs : p.currentState = s)
    (hskips : s.skipsBlanks = true) : p.buffer = [] := h.buffer (hs ▸ hskips)

theorem Parser.Consistent.kinds_ne {s : ParserState} (h : p.Consistent) (hs : p.currentState = s)
    (hv : s ≠ .value) : p.kinds ≠ [] := h.stack.ne_nil (hs ▸ hv)

theorem Parser.Consistent.move {s s' : ParserState} (h : p.Consistent) (hs : p.currentState = s)
    (hv : s ≠ .value) (hin : s'.inObject = true → s.inObject = true)
    (harr : s' ≠ .afterValueArray) : Matches s' p.kinds := by
  have hstack := h.stack
  have hne := h.kinds_ne hs hv
  rw [hs] at hstack
  cases hk : p.kinds with
  | nil => exact absurd hk hne
  | cons k ks =>
    rw [hk] at hstack
    exact ⟨fun h => hstack.1 (hin h), fun h => absurd h harr⟩

theorem demands_cons {k : Kind} {ks : List Kind} (h : p.kinds = k :: ks) :
    Demands lit p w ↔ Inside lit p.currentState p.buffer k (Up lit ks) w := by
  unfold Demands
  rw [h]

theorem demands_nil (h : p.kinds = []) :
    Demands lit p w ↔ p.currentState = .value ∧ ∃ d : Document lit, w = d.text := by
  unfold Demands
  rw [h]

theorem demands_of_inside (hkinds : q.kinds = p.kinds) (hne : p.kinds ≠ [])
    (h : ∀ k ks, p.kinds = k :: ks → Inside lit q.currentState q.buffer k (Up lit ks) w →
      Inside lit p.currentState p.buffer k (Up lit ks) w') :
    Demands lit q w → Demands lit p w' := by
  intro hq
  cases hk : p.kinds with
  | nil => exact absurd hk hne
  | cons k ks =>
    rw [hk] at hkinds
    exact (demands_cons hk).mpr (h k ks hk ((demands_cons hkinds).mp hq))

theorem put_kinds {top : ParserContext} {rest : List ParserContext} (val : Value) :
    (p.put top rest val).kinds = top.value.kind :: rest.map fun c => c.value.kind := by
  unfold Parser.kinds
  rw [Parser.put_contexts, List.map_cons, (storeValue_nextState top val).2]

theorem put_state {top : ParserContext} {rest : List ParserContext} (val : Value) :
    (p.put top rest val).currentState = top.value.kind.afterItem :=
  (storeValue_nextState top val).1

end

/-- What one pass hands back: the demand in front of the byte, from the one behind it. -/
def Carries (lit : Str → Value → Prop) (p : Parser) (ch : Byte) : Flow → Prop
  | .brk q => q.Consistent ∧ ∀ w, Demands lit q w → Demands lit p (ch :: w)
  | .brkBack q => q.Consistent ∧ ∀ w, Demands lit q (ch :: w) → Demands lit p (ch :: w)
  | .ret _ ec => ec = .completed → Demands lit p [ch]
  | .undefined => True

section

variable {cc : CharConv} {p : Parser} {flow : Flow}

theorem carries_blank (hcons : p.Consistent) (hs : p.currentState.skipsBlanks = true)
    (hch : isWhitespace ch = true) : Carries lit p ch (.brk p) := by
  refine ⟨hcons, fun w hw => ?_⟩
  cases hk : p.kinds with
  | nil =>
    obtain ⟨hv, d, rfl⟩ := (demands_nil hk).mp hw
    exact (demands_nil hk).mpr ⟨hv, ⟨d.before.cons ch hch, d.kind, d.items⟩, rfl⟩
  | cons k ks => exact (demands_cons hk).mpr (((demands_cons hk).mp hw).blank hs hch)

theorem carries_open (hcons : p.Consistent) (hs : p.currentState = .value) (k : Kind) :
    Carries lit p k.opener
      (.brk { p with contexts := ⟨[], k.empty⟩ :: p.contexts, currentState := k.start }) := by
  have hbuf : p.buffer = [] := hcons.noText hs rfl
  have hkinds : ({ p with contexts := ⟨[], k.empty⟩ :: p.contexts, currentState := k.start } :
      Parser).kinds = k :: p.kinds := by
    show k.empty.kind :: p.kinds = _
    rw [kind_empty]
  refine ⟨⟨?_, fun _ => hbuf⟩, fun w hw => ?_⟩
  · rw [hkinds]
    exact matches_start k p.kinds
  · have hitems : ItemsRest lit k (Up lit p.kinds) w := by
      have := (demands_cons hkinds).mp hw
      cases k <;> exact this
    cases hk : p.kinds with
    | nil =>
      rw [hk] at hitems
      exact (demands_nil hk).mpr ⟨hs, document_of_items hitems⟩
    | cons k' ks =>
      rw [hk] at hitems
      rw [demands_cons hk, hs]
      exact Inside.opener p.buffer hitems

theorem carries_move {q : Parser} {w w' : Str} {s : ParserState} (hkinds : q.kinds = p.kinds)
    (hcons : p.Consistent) (hs : p.currentState = s) (hv : s ≠ .value)
    (h : ∀ k ks, p.kinds = k :: ks → Inside lit q.currentState q.buffer k (Up lit ks) w →
      Inside lit p.currentState p.buffer k (Up lit ks) w') :
    Demands lit q w → Demands lit p w' :=
  demands_of_inside hkinds (hcons.kinds_ne hs hv) h

theorem kinds_cons {top : ParserContext} {rest : List ParserContext}
    (hc : p.contexts = top :: rest) :
    p.kinds = top.value.kind :: rest.map fun c => c.value.kind := by
  unfold Parser.kinds
  rw [hc]
  rfl

theorem consistent_put {top : ParserContext} {rest : List ParserContext} (val : Value)
    {q : Parser} (hctx : q.contexts = (p.put top rest val).contexts)
    (hs : q.currentState = (p.put top rest val).currentState) (hbuf : q.buffer = []) :
    q.Consistent := by
  refine ⟨?_, fun _ => hbuf⟩
  have hkinds : q.kinds = top.value.kind :: rest.map fun c => c.value.kind := by
    rw [← put_kinds (p := p) val]
    unfold Parser.kinds
    rw [hctx]
  rw [hkinds, hs, put_state]
  exact matches_afterItem _ _

theorem demands_put {q : Parser} {w : Str} (hw : Demands lit q w) {top : ParserContext}
    {rest : List ParserContext} (val : Value) (hctx : q.contexts = (p.put top rest val).contexts)
    (hs : q.currentState = (p.put top rest val).currentState) :
    AfterRest lit top.value.kind (Up lit (rest.map fun c => c.value.kind)) w := by
  have hkinds : q.kinds = top.value.kind :: rest.map fun c => c.value.kind := by
    rw [← put_kinds (p := p) val]
    unfold Parser.kinds
    rw [hctx]
  rw [demands_cons hkinds, hs, put_state] at hw
  exact inside_afterItem.mp hw

theorem branch_carries (hcons : p.Consistent) (hm : ¬ Misplaced p ch)
    (hb : Branch cc p ch flow) : Carries (Literal cc) p ch flow := by
  cases hb with
  | blank hs hch => exact carries_blank hcons hs hch
  | openArray hs hch hd =>
    subst hch
    exact carries_open hcons hs .array
  | openObject hs hch hd =>
    subst hch
    exact carries_open hcons hs .object
  | endInValue hs hch =>
    subst hch
    -- the byte is not misplaced, so an array is open
    obtain ⟨ks, hk⟩ : ∃ ks, p.kinds = .array :: ks := by
      cases hc : p.contexts with
      | nil => exact absurd ⟨hs, by simp [Parser.inArray, hc], rfl⟩ hm
      | cons top rest =>
        refine ⟨rest.map fun c => c.value.kind, ?_⟩
        rw [kinds_cons hc]
        by_cases harr : top.value.kind = .array
        · rw [harr]
        · exact absurd ⟨hs, by simp [Parser.inArray, hc, harr], rfl⟩ hm
    have hbuf : p.buffer = [] := hcons.noText hs rfl
    refine ⟨⟨?_, fun _ => hbuf⟩, fun w => demands_of_inside rfl (by rw [hk]; simp) ?_⟩
    · show Matches .afterValueArray p.kinds
      rw [hk]
      exact matches_afterItem .array ks
    · intro k ks' hk' hw
      rw [hk] at hk'
      cases hk'
      rw [hs]
      exact ItemsRest.closer (AfterRest.of_closer (k := .array) hw)
  | openString hs hch hc =>
    subst hch
    have hne : p.kinds ≠ [] := fun h => hc (List.map_eq_nil_iff.mp h)
    refine ⟨⟨?_, fun h => (by cases h)⟩, fun w => demands_of_inside rfl hne ?_⟩
    · exact Matches.free hne rfl fun h => by cases h
    · rintro k ks - ⟨body, r, rfl, hr⟩
      have htext : Delimiters.stringBeginEnd :: (bodyText body ++ Delimiters.stringBeginEnd :: r) =
          (Cst.string body : Cst (Literal cc)).text ++ r := by simp [Cst.text, quotedText]
      rw [hs, htext]
      exact Inside.value p.buffer _ hr
  | openLiteral hs hch ha ho he hq hc =>
    have hne : p.kinds ≠ [] := fun h => hc (List.map_eq_nil_iff.mp h)
    have hbuf : p.buffer = [] := hcons.noText hs rfl
    refine ⟨⟨?_, fun h => (by cases h)⟩, fun w => demands_of_inside rfl hne ?_⟩
    · exact Matches.free hne rfl fun h => by cases h
    · rintro k ks - ⟨w₁, v, r, rfl, hlit, hr⟩
      rw [hbuf] at hlit
      rw [hs]
      exact Inside.value p.buffer (.literal (ch :: w₁) v hlit) hr
  | literalChar hs hch =>
    refine ⟨⟨hcons.stack, fun h => ?_⟩, fun w => carries_move rfl hcons hs (by decide) ?_⟩
    · rw [show p.currentState = .literal from hs] at h
      cases h
    · intro k ks _ hw
      simp only [hs, Inside] at hw ⊢
      obtain ⟨w₁, v, r, rfl, hlit, hr⟩ := hw
      exact ⟨ch :: w₁, v, r, rfl, by rwa [List.append_assoc] at hlit, hr⟩
  | literalBlank hs hch hc hv hr =>
    rename_i top rest val
    refine ⟨consistent_put (p := p) val rfl rfl rfl, fun w hw => ?_⟩
    have hw := demands_put (p := p) hw val rfl rfl
    rw [demands_cons (kinds_cons hc), hs]
    exact ⟨[], val, ch :: w, rfl, by rw [List.append_nil]; exact hv, hw.blank hch⟩
  | literalBack hs hch hw' hc hv hr =>
    rename_i top rest val
    refine ⟨consistent_put (p := p) val rfl rfl rfl, fun w hw => ?_⟩
    have hw := demands_put (p := p) hw val rfl rfl
    rw [demands_cons (kinds_cons hc), hs]
    exact ⟨[], val, ch :: w, rfl, by rw [List.append_nil]; exact hv, hw⟩
  | rawChar hs hch =>
    refine ⟨⟨hcons.stack, fun h => ?_⟩, fun w => carries_move rfl hcons rfl hs.ne_value.1 ?_⟩
    · rw [show p.currentState.skipsBlanks = false from hs.skipsBlanks.1] at h
      cases h
    · intro k ks _ hw
      obtain ⟨D, hD⟩ := inside_quoted (Literal cc) hs k (Up (Literal cc) ks)
      exact (hD _ _).1.mpr (QuotedRest.raw hch ((hD _ _).1.mp hw))
  | beginEsc hs hch =>
    subst hch
    obtain ⟨hv, -⟩ := hs.ne_value
    refine ⟨⟨?_, fun h => ?_⟩, fun w => carries_move rfl hcons rfl hv ?_⟩
    · exact hcons.move rfl hv (fun h => hs.inObject.trans h) hs.ne_afterValueArray.2
    · rw [hs.skipsBlanks.2] at h
      cases h
    · intro k ks _ hw
      obtain ⟨D, hD⟩ := inside_quoted (Literal cc) hs k (Up (Literal cc) ks)
      exact (hD _ _).1.mpr (QuotedRest.backslash ((hD p.buffer _).2.mp hw))
  | escChar hs hch =>
    obtain ⟨-, hv⟩ := hs.ne_value
    refine ⟨⟨?_, fun h => ?_⟩, fun w => carries_move rfl hcons rfl hv ?_⟩
    · exact hcons.move rfl hv (fun h => hs.inObject.symm.trans h) hs.ne_afterValueArray.1
    · rw [hs.skipsBlanks.1] at h
      cases h
    · intro k ks _ hw
      obtain ⟨D, hD⟩ := inside_quoted (Literal cc) hs k (Up (Literal cc) ks)
      exact (hD p.buffer _).2.mpr ⟨ch, _, w, hch, rfl, (hD _ _).1.mp hw⟩
  | closeString hs hch hc hr =>
    subst hch
    rename_i top rest
    refine ⟨consistent_put (p := p) (.string p.buffer) rfl rfl rfl, fun w hw => ?_⟩
    have hw := demands_put (p := p) hw (.string p.buffer) rfl rfl
    rw [demands_cons (kinds_cons hc), hs]
    exact ⟨[], w, rfl, hw⟩
  | openKey hs hch =>
    subst hch
    refine ⟨⟨?_, fun h => (by cases h)⟩, fun w => carries_move rfl hcons hs (by decide) ?_⟩
    · exact hcons.move hs (by decide) (fun _ => rfl) fun h => by cases h
    · intro k ks _ hw
      rw [hs]
      exact ItemsRest.member hw
  | endInBeforeKey hs hch =>
    subst hch
    have hbuf : p.buffer = [] := hcons.noText hs rfl
    refine ⟨⟨?_, fun _ => hbuf⟩, fun w => carries_move rfl hcons hs (by decide) ?_⟩
    · exact hcons.move hs (by decide) (fun _ => rfl) fun h => by cases h
    · intro k ks _ hw
      rw [hs]
      exact ItemsRest.closer (AfterRest.of_closer (k := .object) hw)
  | closeKey hs hch hc =>
    subst hch
    rename_i top rest
    have hkinds : ∀ q : Parser, q.contexts = { top with key := p.buffer } :: rest →
        q.kinds = p.kinds := by
      intro q hq
      unfold Parser.kinds
      rw [hq, hc]
      rfl
    refine ⟨⟨?_, fun _ => rfl⟩,
      fun w => carries_move (hkinds _ rfl) hcons hs (by decide) ?_⟩
    · rw [hkinds _ rfl]
      exact hcons.move hs (by decide) (fun _ => rfl) fun h => by cases h
    · intro k ks _ hw
      rw [hs]
      exact ⟨[], w, rfl, hw⟩
  | colon hs hch =>
    subst hch
    have hbuf : p.buffer = [] := hcons.noText hs rfl
    refine ⟨⟨matches_value _, fun _ => hbuf⟩,
      fun w => carries_move rfl hcons hs (by decide) ?_⟩
    intro k ks hk hw
    have hstack := hcons.stack
    rw [hk, hs] at hstack
    obtain rfl := hstack.1 rfl
    rw [hs]
    exact ⟨Blank.empty, w, rfl, hw⟩
  | commaObject hs hch =>
    subst hch
    have hbuf : p.buffer = [] := hcons.noText hs rfl
    refine ⟨⟨?_, fun _ => hbuf⟩, fun w => carries_move rfl hcons hs (by decide) ?_⟩
    · exact hcons.move hs (by decide) (fun _ => rfl) fun h => by cases h
    · intro k ks _ hw
      rw [hs]
      exact AfterRest.comma hw
  | commaArray hs hch =>
    subst hch
    have hbuf : p.buffer = [] := hcons.noText hs rfl
    refine ⟨⟨matches_value _, fun _ => hbuf⟩,
      fun w => carries_move rfl hcons hs (by decide) ?_⟩
    intro k ks hk hw
    have hstack := hcons.stack
    rw [hk, hs] at hstack
    obtain rfl := hstack.2 rfl
    rw [hs]
    exact AfterRest.comma hw
  | closeContainer hs hc hr =>
    rename_i current top rest
    have hbuf : p.buffer = [] := hcons.buffer hs.skipsBlanks
    refine ⟨consistent_put (p := p) (toValue current.value) rfl rfl hbuf, fun w hw => ?_⟩
    have hw := demands_put (p := p) hw (toValue current.value) rfl rfl
    rw [demands_cons (kinds_cons hc)]
    exact inside_closes hs hw
  | closeRoot hs hc =>
    intro _
    rw [demands_cons (kinds_cons hc)]
    exact inside_closes hs rfl
  | tooDeep | leafAtTop | literalInvalid | literalRefused | rawIllegal | escIllegal | stringRefused
  | illegal | closeRefused =>
    intro hec
    cases hec
  | literalEmpty | stringEmpty | keyEmpty | closeEmpty => exact trivial

end

/-! ## Whole runs -/

section

variable {cc : CharConv} {p q : Parser}

/-- Where the strict machine does not complain it does what the pass does. -/
theorem strictStep_flow {m : Move Parser Stop} (h : strictStep cc p ch = m)
    (hne : m ≠ .stop p (some .illegalDelimiter)) :
    ¬ Misplaced p ch ∧ (pass cc p ch).toMove p id = m := by
  unfold strictStep at h
  split at h
  · exact absurd h.symm hne
  · rename_i hm
    exact ⟨hm, h⟩

theorem strictStep_next (h : strictStep cc p ch = .next q) :
    ¬ Misplaced p ch ∧ pass cc p ch = .brk q := by
  obtain ⟨hm, hflow⟩ := strictStep_flow h fun hm => by cases hm
  obtain ⟨r, hpass, hq⟩ := toMove_eq_next hflow
  exact ⟨hm, hpass.trans (congrArg Flow.brk hq.symm)⟩

theorem strictStep_back (h : strictStep cc p ch = .back q) :
    ¬ Misplaced p ch ∧ pass cc p ch = .brkBack q := by
  obtain ⟨hm, hflow⟩ := strictStep_flow h fun hm => by cases hm
  exact ⟨hm, toMove_eq_back hflow⟩

theorem strictStep_completed (h : strictStep cc p ch = .stop q (some .completed)) :
    ¬ Misplaced p ch ∧ pass cc p ch = .ret q .completed := by
  obtain ⟨hm, hflow⟩ := strictStep_flow h fun hm => by cases hm
  exact ⟨hm, toMove_eq_stop hflow⟩

theorem pass_carries {flow : Flow} (hcons : p.Consistent) (hm : ¬ Misplaced p ch)
    (h : pass cc p ch = flow) : Carries (Literal cc) p ch flow :=
  h ▸ branch_carries hcons hm (pass_branch cc p ch)

/-- The strict machine completes at the end of a document only. -/
theorem strict_sound {root : Container} {maxLevels : Option Nat} {w : Str} {n : Nat}
    (h : scan (strictStep cc) (Parser.init root maxLevels) w = .stopped q (some .completed) n) :
    ∃ d : Document (Literal cc), d.text = w.take n := by
  have hdemands : Demands (Literal cc) (Parser.init root maxLevels) (w.take n) := by
    refine scan_backward (I := Parser.Consistent) (D := Demands (Literal cc))
      (P := fun e => e = some .completed) (fun p ch q hp hstep => ?_) (fun p ch q hp hstep => ?_)
      (fun p ch q e hp hstep he => ?_) (strictStep_settles cc) w
      ⟨matches_value _, fun _ => rfl⟩ h rfl
    · obtain ⟨hm, hpass⟩ := strictStep_next hstep
      exact pass_carries hp hm hpass
    · obtain ⟨hm, hpass⟩ := strictStep_back hstep
      exact pass_carries hp hm hpass
    · subst he
      obtain ⟨hm, hpass⟩ := strictStep_completed hstep
      exact pass_carries hp hm hpass rfl
  obtain ⟨-, d, hd⟩ := hdemands
  exact ⟨d, hd.symm⟩

end

end Jopp
