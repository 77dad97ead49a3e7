import Jopp.Serializer.Written
import Jopp.Serializer.ToString
import Jopp.Parser.Nesting

/-!
# Jopp.Serializer.Unfinished

What a serializer has written before it completes, whatever the sizes of the buffers are and also
where the caller goes on after an item that cannot be escaped. The outermost container is still
open then: outside of strings the text has opened one container for each context on the stack
(`Serializer.Unfinished`). So no parser completes on it (`unfinished_rejected`).
-/

namespace Jopp

/-- Outside of strings, with `d` containers open. -/
def NestingCount.At (n : NestingCount) (d : Nat) : Prop := n.place.quoted = false ∧ n.depth = d

def countOf (w : Str) : NestingCount := w.foldl NestingCount.next ⟨.outside, 0, 0⟩

/-- Read with `d` containers open, the text ends with `d'` open. -/
def Leads (u : Str) (d d' : Nat) : Prop :=
  ∀ n : NestingCount, n.At d → (u.foldl NestingCount.next n).At d'

section

variable {cc : CharConv} {pretty : Bool} {n : NestingCount} {d d' d'' depth : Nat} {u v w : Str}
  {ch : Byte}

theorem NestingCount.At.not_ended (h : n.At (d + 1)) : ¬ n.Ended := by
  rintro ⟨hzero, -⟩
  rw [h.2] at hzero
  cases hzero

theorem countOf_append (u v : Str) : countOf (u ++ v) = v.foldl NestingCount.next (countOf u) :=
  List.foldl_append

theorem not_ended_of_append (h : ¬ (countOf (u ++ v)).Ended) : ¬ (countOf u).Ended := by
  intro hended
  rw [countOf_append, foldl_ended hended] at h
  exact h hended

theorem Leads.append (hu : Leads u d d') (hv : Leads v d' d'') : Leads (u ++ v) d d'' := by
  intro n hn
  rw [List.foldl_append]
  exact hv _ (hu n hn)

theorem leads_quiet (h : ∀ ch ∈ u, ¬ isBracket ch ∧ ch ≠ Delimiters.stringBeginEnd) :
    Leads u (d + 1) (d + 1) := by
  intro n hn
  induction u generalizing n with
  | nil => exact hn
  | cons ch u ih =>
    rw [List.forall_mem_cons] at h
    obtain ⟨⟨hbracket, hquote⟩, hu⟩ := h
    simp only [isBracket, not_or] at hbracket
    have hnext : n.next ch = { n with place := n.place.next ch } := by
      rw [NestingCount.next, if_neg hn.not_ended, if_neg (by simp [hn.1])]
      simp [hbracket]
    rw [List.foldl_cons, hnext]
    exact ih hu _ ⟨next_quiet hn.1 hquote, hn.2⟩

theorem leads_plain (h : ∀ ch ∈ u, isPlain ch = true) : Leads u (d + 1) (d + 1) :=
  leads_quiet fun ch hch =>
    ⟨not_isBracket_of_plain (h ch hch), (plain_ne (h ch hch)).2.2.2.2.2.2⟩

theorem leads_blank (h : ∀ ch ∈ u, isWhitespace ch = true) : Leads u (d + 1) (d + 1) :=
  leads_quiet fun ch hch => by
    refine ⟨not_isBracket_of_whitespace (h ch hch), ?_⟩
    rintro rfl
    exact absurd (h _ hch) (by decide)

theorem leads_open (h : ch = Delimiters.beginArray ∨ ch = Delimiters.beginObject) :
    Leads [ch] (d + 1) (d + 2) := by
  intro n hn
  have hplace : (n.place.next ch).quoted = false := by
    rcases quoted_eq_false.mp hn.1 with hp | hp <;> rcases h with rfl | rfl <;> rw [hp] <;> rfl
  show (n.next ch).At _
  rw [NestingCount.next, if_neg hn.not_ended, if_neg (by simp [hn.1]), if_pos h]
  exact ⟨hplace, congrArg Nat.succ hn.2⟩

theorem leads_close (h : ch = Delimiters.endArray ∨ ch = Delimiters.endObject) :
    Leads [ch] (d + 1) d := by
  intro n hn
  have hplace : (n.place.next ch).quoted = false := by
    rcases quoted_eq_false.mp hn.1 with hp | hp <;> rcases h with rfl | rfl <;> rw [hp] <;> rfl
  have hne : ¬ (ch = Delimiters.beginArray ∨ ch = Delimiters.beginObject) := by
    rcases h with rfl | rfl <;> decide
  show (n.next ch).At _
  rw [NestingCount.next, if_neg hn.not_ended, if_neg (by simp [hn.1]), if_neg hne, if_pos h]
  exact ⟨hplace, congrArg Nat.pred hn.2⟩

theorem foldl_body (body : List StrChar) (hn : ¬ n.Ended) (hplace : n.place = .inString) :
    (bodyText body).foldl NestingCount.next n = n := by
  induction body with
  | nil => rfl
  | cons x body ih =>
    show (x.text ++ bodyText body).foldl NestingCount.next n = n
    obtain ⟨place, depth, deepest⟩ := n
    obtain rfl : place = .inString := hplace
    have hskip : ∀ place' : Place, place'.quoted = true → ∀ ch,
        NestingCount.next ⟨place', depth, deepest⟩ ch = ⟨place'.next ch, depth, deepest⟩ :=
      fun place' hq ch => by
        have hn' : ¬ NestingCount.Ended ⟨place', depth, deepest⟩ := hn
        simp only [NestingCount.next, if_neg hn', hq, if_true]
    cases x with
    | raw ch h =>
      simp only [StrChar.text, List.cons_append, List.nil_append, List.foldl_cons]
      rw [hskip _ rfl, next_raw h, ih]
    | escaped escChar val h =>
      simp only [StrChar.text, List.cons_append, List.nil_append, List.foldl_cons]
      rw [hskip _ rfl, show Place.inString.next beginEscSeq = .afterBackslash from rfl, hskip _ rfl,
        show Place.afterBackslash.next escChar = .inString from rfl, ih]

theorem leads_wrapString {s t : Str} (h : wrapString s = some t) : Leads t (d + 1) (d + 1) := by
  obtain ⟨body, rfl, -⟩ := wrapString_quoted h
  intro n hn
  have hquote : ∀ n : NestingCount, ¬ n.Ended → n.next Delimiters.stringBeginEnd =
      { n with place := n.place.next Delimiters.stringBeginEnd } := fun n hn => by
    rw [NestingCount.next, if_neg hn]
    split
    · rfl
    · rw [if_neg (by decide), if_neg (by decide)]
  have hopen : n.next Delimiters.stringBeginEnd = { n with place := .inString } := by
    rw [hquote n hn.not_ended, next_quote hn.1]
  have hstill : ¬ NestingCount.Ended { n with place := .inString } := hn.not_ended
  unfold quotedText
  rw [List.foldl_cons, List.foldl_append, hopen, foldl_body body hstill rfl, List.foldl_cons,
    hquote _ hstill]
  exact ⟨rfl, hn.2⟩

/-! ## Tokens -/

theorem leads_lineBreak (pretty : Bool) : Leads (lineBreak pretty) (d + 1) (d + 1) :=
  leads_blank lineBreak_blank

theorem leads_comma : Leads [Delimiters.valueSeparator] (d + 1) (d + 1) :=
  leads_quiet fun ch hch => by
    rw [List.mem_singleton.mp hch]
    decide

theorem leads_beforeItem (pretty : Bool) (depth : Nat) (first : Bool) :
    Leads (beforeItem pretty depth first) (d + 1) (d + 1) := by
  have hindent : Leads (indent pretty depth) (d + 1) (d + 1) := leads_blank indent_blank
  cases first with
  | true => exact hindent
  | false => exact (leads_comma.append (leads_lineBreak pretty)).append hindent

theorem leads_keyText {key keyPart : Str} (h : keyText pretty key = some keyPart) :
    Leads keyPart (d + 1) (d + 1) := by
  unfold keyText at h
  split at h
  · cases h
    exact fun n hn => hn
  split at h
  · cases h
  · rename_i wrapped hwrapped
    cases h
    refine ((leads_wrapString hwrapped).append (leads_quiet ?_)).append (leads_blank ?_)
    · intro ch hch
      rw [List.mem_singleton.mp hch]
      decide
    · cases pretty with
      | false => exact nofun
      | true => exact List.forall_mem_singleton.mpr rfl

def Value.opens : Value → Nat
  | .object _ | .array _ => 1
  | _ => 0

theorem leads_headText (hcc : cc.WritesPlain) {val : Value} {head : Str}
    (h : headText cc pretty val = some head) : Leads head (d + 1) (d + 1 + val.opens) := by
  cases val with
  | null =>
    cases h
    exact leads_plain (List.all_eq_true.mp rfl)
  | boolean b =>
    cases h
    cases b <;> exact leads_plain (List.all_eq_true.mp rfl)
  | number x =>
    cases h
    exact leads_plain (hcc x)
  | string s => exact leads_wrapString h
  | object ms =>
    cases h
    exact (leads_open (.inr rfl)).append (leads_lineBreak pretty)
  | array vs =>
    cases h
    exact (leads_open (.inl rfl)).append (leads_lineBreak pretty)

theorem leads_itemToken (hcc : cc.WritesPlain) {first : Bool} {key tok : Str} {val : Value}
    (h : itemToken cc pretty depth first key val = some tok) :
    Leads tok (d + 1) (d + 1 + val.opens) := by
  obtain ⟨keyPart, head, hkey, hhead, rfl⟩ := itemToken_eq_some h
  exact ((leads_beforeItem pretty depth first).append (leads_keyText hkey)).append
    (leads_headText hcc hhead)

theorem leads_closeText {terminator : Byte}
    (h : terminator = Delimiters.endArray ∨ terminator = Delimiters.endObject) :
    Leads (closeText pretty (d + 1) terminator) (d + 2) (d + 1) := by
  have hgap : Leads (if pretty then [newline] ++ List.replicate (d + 1) horizontalTab else [])
      (d + 2) (d + 2) := by
    refine leads_blank fun ch hch => ?_
    cases pretty with
    | false => cases hch
    | true =>
      rcases List.mem_cons.mp hch with rfl | hch
      · rfl
      · rw [List.eq_of_mem_replicate hch]
        rfl
  have hend : Leads (if d + 1 = 0 then [newline] else []) (d + 1) (d + 1) := fun n hn => hn
  exact (hgap.append (leads_close h)).append hend

end

/-! ## The serializer -/

/-- The bytes written so far are `w`, and the outermost container is not closed in them. -/
structure Serializer.Unfinished (s : Serializer) (w : Str) : Prop where
  closers : ∀ context ∈ s.contexts, context.blockTerminator = Delimiters.endArray ∨
    context.blockTerminator = Delimiters.endObject
  unended : ¬ (countOf w).Ended
  level : s.contexts ≠ [] → (countOf (w ++ s.rangeToWrite)).At s.contexts.length

section

variable {cc : CharConv} {s s' : Serializer} {w w' : Str} {cap cap' : Nat}

theorem unfinished_init (t : Container) (pretty : Bool) :
    (Serializer.init t pretty).Unfinished [] := by
  have hlineBreak : ∀ n : NestingCount, n.At 1 →
      ((lineBreak pretty).foldl NestingCount.next n).At 1 := leads_lineBreak pretty
  refine ⟨?_, by decide, fun _ => ?_⟩
  · cases t with
    | object ms => exact List.forall_mem_singleton.mpr (.inr rfl)
    | array vs => exact List.forall_mem_singleton.mpr (.inl rfl)
  · rw [init_rangeToWrite]
    cases t <;> exact hlineBreak _ ⟨rfl, rfl⟩

theorem contexts_of_next (h : serializePass cc cap w s = .next cap' w' s') : s.contexts ≠ [] := by
  intro hc
  have hdone : ∃ o, serializePass cc cap w s = .done o := by
    unfold serializePass
    split
    · exact ⟨_, rfl⟩
    · simp only [hc]
      exact ⟨_, rfl⟩
  obtain ⟨o, ho⟩ := hdone
  rw [h] at ho
  cases ho

theorem fill_error {current : SerializerContext} {rest : List SerializerContext}
    (h : fill cc s current rest = .error s') :
    s'.rangeToWrite = s.rangeToWrite ∧ s'.contexts.length = rest.length + 1 ∧
      s'.prettyPrint = s.prettyPrint := by
  cases hr : current.range <;> simp only [fill, hr] at h
  · cases h
  · split at h
    · cases h
      exact ⟨rfl, rfl, rfl⟩
    split at h
    · cases h
      exact ⟨rfl, rfl, rfl⟩
    · cases h

theorem fill_pushes {current : SerializerContext} {rest : List SerializerContext}
    {item : ItemPointer} {range : List ItemPointer} (hr : current.range = item :: range)
    (h : fill cc s current rest = .ok s') :
    s'.contexts.length = rest.length + 1 + item.value.opens := by
  simp only [fill, hr] at h
  split at h
  · cases h
  split at h
  · cases h
  · rename_i t hval
    cases h
    cases hv : item.value <;> simp only [hv, appendValue] at hval
    case string str =>
      split at hval
      · cases hval
      · cases hval
        rfl
    all_goals
      cases hval
      rfl

/-- The text of a step leads to as many open containers as there are contexts then. -/
theorem fill_leads (hcc : cc.WritesPlain) {current : SerializerContext}
    {rest : List SerializerContext} (hc : s.contexts = current :: rest)
    (hterm : current.blockTerminator = Delimiters.endArray ∨
      current.blockTerminator = Delimiters.endObject)
    (h : fill cc s current rest = .ok s') (hne : s'.contexts ≠ []) :
    Leads s'.rangeToWrite (rest.length + 1) s'.contexts.length := by
  rcases fill_cases cc s hc with ⟨tok, t, hok, hrange, -, hpending⟩ | ⟨t, -, herror, -⟩
  · rw [h] at hok
    cases hok
    rw [hrange]
    rw [hc] at hpending
    cases hr : current.range with
    | nil =>
      obtain ⟨-, hs'⟩ | ⟨item, range, hr', -⟩ := fill_contexts (.inl h)
      · simp only [pendingTokens, hr, blockTokens, List.nil_append] at hpending
        obtain rfl := Option.some.inj (List.cons.inj hpending).1
        rw [hs']
        cases rest with
        | nil => exact absurd hs' hne
        | cons context rest => exact leads_closeText hterm
      · rw [hr] at hr'
        cases hr'
    | cons item range =>
      simp only [pendingTokens, hr, blockTokens, List.cons_append] at hpending
      rw [fill_pushes hr h]
      exact leads_itemToken hcc (List.cons.inj hpending).1
  · rw [h] at herror
    cases herror

theorem unfinished_fill (hcc : cc.WritesPlain) {current : SerializerContext}
    {rest : List SerializerContext} (hs : s.Unfinished w) (hc : s.contexts = current :: rest)
    (h : fill cc { s with rangeToWrite := [] } current rest = .ok s' ∨
      fill cc { s with rangeToWrite := [] } current rest = .error s') :
    s'.Unfinished (w ++ s.rangeToWrite) := by
  have hlevel : (countOf (w ++ s.rangeToWrite)).At (rest.length + 1) := by
    have hlevel := hs.level (by rw [hc]; exact nofun)
    rwa [hc] at hlevel
  have hclosers := hs.closers
  rw [hc, List.forall_mem_cons] at hclosers
  have hmake : ∀ c : Container,
      (makeSerializerContext c).blockTerminator = Delimiters.endArray ∨
        (makeSerializerContext c).blockTerminator = Delimiters.endObject := fun c => by
    cases c with
    | object ms => exact .inr rfl
    | array vs => exact .inl rfl
  refine ⟨?_, hlevel.not_ended, fun hne => ?_⟩
  · rcases fill_contexts h with ⟨-, hs'⟩ | ⟨item, range, -, hs' | ⟨c, -, hs'⟩⟩ <;>
      simp only [hs', List.forall_mem_cons]
    · exact hclosers.2
    · exact hclosers
    · exact ⟨hmake c, hclosers⟩
  · rcases h with h | h
    · have hleads : Leads s'.rangeToWrite (rest.length + 1) s'.contexts.length :=
        fill_leads hcc (s := { s with rangeToWrite := [] }) hc hclosers.1 h hne
      rw [countOf_append]
      exact hleads _ hlevel
    · obtain ⟨hrange, hlen, -⟩ := fill_error h
      rw [hrange, hlen]
      simpa using hlevel

section

variable {v : Str}

/-- A pass that goes on keeps the outermost container open. What earlier calls have written is
`v`. -/
theorem unfinished_next (hcc : cc.WritesPlain) (hs : s.Unfinished (v ++ w))
    (hpass : serializePass cc cap w s = .next cap' w' s') : s'.Unfinished (v ++ w') := by
  have hne := contexts_of_next hpass
  have hb := serializePass_branch cc cap w s
  rw [hpass] at hb
  cases hb with
  | cut hcap hlt =>
    have hlevel := hs.level hne
    have hsame : v ++ (w ++ s.rangeToWrite.take cap) ++ s.rangeToWrite.drop cap =
        v ++ w ++ s.rangeToWrite := by
      simp only [List.append_assoc, List.take_append_drop]
    obtain ⟨current, rest, hc⟩ := List.exists_cons_of_ne_nil hne
    refine ⟨hs.closers, ?_, fun _ => ?_⟩
    · rw [hc, ← hsame] at hlevel
      exact not_ended_of_append hlevel.not_ended
    · rw [hsame]
      exact hlevel
  | filled hle hc hf =>
    rw [← List.append_assoc]
    exact unfinished_fill hcc hs hc (.inl hf)

theorem unfinished_done (hcc : cc.WritesPlain) (hs : s.Unfinished (v ++ w))
    {ec : SerializerErrorCode} (hpass : serializePass cc cap w s = .done (.returned w' ec s'))
    (hec : ec ≠ .completed) : s'.Unfinished (v ++ w') := by
  have hb := serializePass_branch cc cap w s
  rw [hpass] at hb
  cases hb with
  | full hcap => exact hs
  | completed hcap hc => exact absurd rfl hec
  | illegal hle hc hf =>
    rw [← List.append_assoc]
    exact unfinished_fill hcc hs hc (.inr hf)

theorem unfinished_serialize (hcc : cc.WritesPlain) (hs : s.Unfinished v)
    {ec : SerializerErrorCode} (h : serialize cc s cap = .returned w ec s')
    (hec : ec ≠ .completed) : s'.Unfinished (v ++ w) :=
  serializeLoop_inv (I := fun _ u t => t.Unfinished (v ++ u))
    (P := fun u ec t => ec ≠ .completed → t.Unfinished (v ++ u))
    (fun _ _ _ _ _ _ hI hpass => unfinished_next hcc hI hpass)
    (fun _ _ _ _ _ _ hI hpass hec => unfinished_done hcc hI hpass hec) (by simpa using hs) h hec

end

end

/-! ## Whole runs -/

/-- A caller that passes one buffer after another until a call completes, also where an item could
not be escaped. -/
def serializeOn (cc : CharConv) (s : Serializer) : List Nat → SerializeOutcome
  | [] => .returned [] .bufferIsFull s
  | outputBuffer :: outputBuffers =>
    match serialize cc s outputBuffer with
    | .returned written ec s =>
      if ec = .completed then .returned written ec s
      else
        match serializeOn cc s outputBuffers with
        | .returned written' ec s => .returned (written ++ written') ec s
        | o => o
    | o => o

section

variable {cc : CharConv} {s s' : Serializer} {w : Str}

theorem unfinished_serializeOn (hcc : cc.WritesPlain) {ec : SerializerErrorCode} {caps : List Nat}
    {v : Str} (hs : s.Unfinished v) (h : serializeOn cc s caps = .returned w ec s')
    (hec : ec ≠ .completed) : s'.Unfinished (v ++ w) := by
  induction caps generalizing s v w with
  | nil =>
    cases h
    simpa using hs
  | cons cap caps ih =>
    obtain ⟨written, ec₁, s₁, hcall⟩ := serialize_returned cc s cap
    simp only [serializeOn, hcall] at h
    by_cases hec₁ : ec₁ = .completed
    · rw [if_pos hec₁] at h
      cases h
      exact absurd hec₁ hec
    · rw [if_neg hec₁] at h
      have hs₁ := unfinished_serialize hcc hs hcall hec₁
      cases hrest : serializeOn cc s₁ caps with
      | outOfFuel =>
        rw [hrest] at h
        cases h
      | returned written' ec' s'' =>
        rw [hrest] at h
        cases h
        rw [← List.append_assoc]
        exact ih hs₁ hrest

/-- No parser completes on a text whose outermost container is open. -/
theorem not_completes_of_open (hcc : cc.Plain) (h : ¬ (countOf w).Ended) (maxLevels : Option Nat)
    (c : Container) : ¬ Completes cc maxLevels w c := by
  rintro ⟨res, q, hrun, hec, -⟩
  have hstop := stopped_of_completed hrun hec
  obtain ⟨u, ch, v, rfl, -, hcompleted⟩ := (counted_scan hcc .empty maxLevels w).2 q _ _ hstop
  have hended := (hcompleted rfl).1
  refine h ?_
  rw [countOf_append, List.foldl_cons]
  have hstays : v.foldl NestingCount.next ((countOf u).next ch) = (countOf u).next ch :=
    foldl_ended hended v
  rw [hstays]
  exact hended

/-- **Before it completes**, a serializer has written nothing a parser would complete on. The caller
may go on after items that cannot be escaped, and choose the buffers as it likes. -/
theorem unfinished_rejected (cc : CharConv) (hcc : cc.Plain) (hwrites : cc.WritesPlain)
    (t : Container) (pretty : Bool) (caps : List Nat) (w : Str) (ec : SerializerErrorCode)
    (s : Serializer) (h : serializeOn cc (Serializer.init t pretty) caps = .returned w ec s)
    (hec : ec ≠ .completed) (maxLevels : Option Nat) (c : Container) :
    ¬ Completes cc maxLevels w c := by
  have hopen := (unfinished_serializeOn hwrites (unfinished_init t pretty) h hec).unended
  exact not_completes_of_open hcc hopen maxLevels c

/-- Of `["\f",{}]` the string cannot be escaped; the comma behind it is written. -/
theorem unfinished_rejected_formFeed :
    ∃ s, serializeOn .binary (Serializer.init (.array [.string [0x0c], .object []]) false) [8, 3] =
        .returned [0x5b, 0x2c, 0x7b, 0x7d] .bufferIsFull s ∧
      ∀ c, ¬ Completes .binary none [0x5b, 0x2c, 0x7b, 0x7d] c :=
  ⟨_, rfl, unfinished_rejected .binary binary_plain binary_writesPlain
    (.array [.string [0x0c], .object []]) false [8, 3] _ .bufferIsFull _ rfl (by decide) none⟩

end

end Jopp
