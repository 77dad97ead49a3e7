import Jopp.Lib.Readable
import Jopp.Serializer.Pretty
import Jopp.Serializer.Salvage

/-!
# Jopp.Serializer.Unique

What is written tells which tree it is of, also where the parser cannot read it because a key is
empty.

* `Value.Faithful`: the trees all of which is written as it is.
* `value_unique`: the compact text of a value is read uniquely in front of a comma or a closing
  delimiter. A member without its key is told from one that has it by what follows the string.
* `written_injective`: what two trees are written as agrees up to whitespace outside of strings
  exactly if the trees are the same.
-/

namespace Jopp

open Readable

variable {cc : CharConv} {depth : Nat}

/-- All strings can be escaped, and no number is a NaN. -/
structure Value.Faithful (v : Value) : Prop where
  escapable : v.AllStrings Escapable
  numbers : v.NumbersOnly

structure ItemPointer.Faithful (item : ItemPointer) : Prop where
  key : Escapable item.key
  value : item.value.Faithful

theorem faithful_items {c : Container} (h : (toValue c).Faithful) :
    ∀ item ∈ itemPointers c, item.Faithful := by
  intro item hitem
  refine ⟨?_, all_item h.escapable hitem, all_item h.numbers hitem⟩
  cases c with
  | object ms =>
    obtain ⟨kv, hkv, rfl⟩ := List.mem_map.mp hitem
    exact (allStrings_object.mp h.escapable kv hkv).1
  | array vs =>
    obtain ⟨v, -, rfl⟩ := List.mem_map.mp hitem
    exact escapable_nil

/-! ## Strings -/

theorem strChar_ne_quote (x : StrChar) (w u : Str) :
    x.text ++ w ≠ Delimiters.stringBeginEnd :: u := by
  intro h
  cases x with
  | raw ch hraw => exact (raw_ne hraw).1 (List.cons.inj h).1
  | escaped escChar val hesc => exact absurd (List.cons.inj h).1 (by decide)

theorem strChar_unique {x x' : StrChar} {w w' : Str} (h : x.text ++ w = x'.text ++ w') :
    x = x' ∧ w = w' := by
  cases x with
  | raw ch hraw =>
    cases x' with
    | raw ch' hraw' =>
      obtain ⟨rfl, rfl⟩ := List.cons.inj h
      exact ⟨rfl, rfl⟩
    | escaped escChar' val' hesc' => exact absurd (List.cons.inj h).1 (raw_ne hraw).2
  | escaped escChar val hesc =>
    cases x' with
    | raw ch' hraw' => exact absurd (List.cons.inj h).1.symm (raw_ne hraw').2
    | escaped escChar' val' hesc' =>
      have htail : escChar :: w = escChar' :: w' := (List.cons.inj h).2
      obtain ⟨rfl, rfl⟩ := List.cons.inj htail
      obtain rfl := Option.some.inj (hesc.symm.trans hesc')
      exact ⟨rfl, rfl⟩

theorem body_unique {r r' : Str} (body : List StrChar) : ∀ body' : List StrChar,
    bodyText body ++ Delimiters.stringBeginEnd :: r =
      bodyText body' ++ Delimiters.stringBeginEnd :: r' → body = body' ∧ r = r' := by
  have hcons : ∀ (x : StrChar) (body : List StrChar) (w : Str),
      bodyText (x :: body) ++ w = x.text ++ (bodyText body ++ w) := fun x body w => by
    simp [bodyText]
  induction body with
  | nil =>
    intro body' h
    cases body' with
    | nil => exact ⟨rfl, (List.cons.inj h).2⟩
    | cons x' body' =>
      rw [hcons] at h
      exact absurd h.symm (strChar_ne_quote x' _ r)
  | cons x body ih =>
    intro body' h
    cases body' with
    | nil =>
      rw [hcons] at h
      exact absurd h (strChar_ne_quote x _ r')
    | cons x' body' =>
      rw [hcons, hcons] at h
      obtain ⟨rfl, htail⟩ := strChar_unique h
      obtain ⟨rfl, rfl⟩ := ih body' htail
      exact ⟨rfl, rfl⟩

theorem quoted_of_escapable {s : Str} (h : Escapable s) :
    ∃ body, bodyVal body = s ∧ wrapString s = some (quotedText body) := by
  obtain ⟨w, hw⟩ := Option.ne_none_iff_exists'.mp fun hn => wrapString_eq_none.mp hn h
  obtain ⟨body, rfl, hbody⟩ := wrapString_quoted hw
  exact ⟨body, hbody, hw⟩

theorem quoted_unique {body body' : List StrChar} {r r' : Str}
    (h : quotedText body ++ r = quotedText body' ++ r') : body = body' ∧ r = r' := by
  have htail : bodyText body ++ [Delimiters.stringBeginEnd] ++ r =
      bodyText body' ++ [Delimiters.stringBeginEnd] ++ r' := (List.cons.inj h).2
  rw [List.append_assoc, List.append_assoc] at htail
  exact body_unique body body' htail

/-! ## The forms of a value -/

def itemText (cc : CharConv) (depth : Nat) (item : ItemPointer) : Str :=
  (keyText false item.key).getD [] ++ item.value.text cc false depth

/-- A container that has `depth` others around it. -/
def blockText (cc : CharConv) (depth : Nat) (c : Container) : Str :=
  c.kind.opener :: (sepText (itemText cc (depth + 1)) Delimiters.valueSeparator (itemPointers c) ++
    [c.kind.closer])

/-- The compact text of a value is a word, a string or a container. -/
inductive Form (cc : CharConv) (depth : Nat) : Value → Str → Prop where
  | word {v : Value} {w : Str} (h : Spelled cc w v) : Form cc depth v w
  | quoted (body : List StrChar) : Form cc depth (.string (bodyVal body)) (quotedText body)
  | block (c : Container) : Form cc depth (toValue c) (blockText cc depth c)

theorem queueText_moreText {range : List ItemPointer} (h : ∀ item ∈ range, item.Faithful) :
    Drain.queueText (blockTokens cc false depth false range) =
      moreText (itemText cc depth) Delimiters.valueSeparator range := by
  induction range with
  | nil => rfl
  | cons item range ih =>
    obtain ⟨⟨hkey, hval⟩, hrange⟩ := List.forall_mem_cons.mp h
    obtain ⟨keyPart, hpart⟩ := Option.ne_none_iff_exists'.mp fun hn =>
      (keyText_eq_none false).mp hn hkey
    rw [queueText_item hpart (writable_of_escapable hval.escapable), ih hrange, moreText_cons,
      itemText, hpart]
    simp [beforeItem, lineBreak, indent]

theorem blockBody_sepText {range : List ItemPointer} (h : ∀ item ∈ range, item.Faithful) :
    blockBody cc false depth range =
      sepText (itemText cc depth) Delimiters.valueSeparator range := by
  cases range with
  | nil => rfl
  | cons item range =>
    obtain ⟨⟨hkey, hval⟩, hrange⟩ := List.forall_mem_cons.mp h
    obtain ⟨keyPart, hpart⟩ := Option.ne_none_iff_exists'.mp fun hn =>
      (keyText_eq_none false).mp hn hkey
    rw [blockBody, queueText_item hpart (writable_of_escapable hval.escapable),
      queueText_moreText hrange, sepText, itemText, hpart]
    simp [beforeItem, lineBreak, indent]

theorem container_text {c : Container} (h : (toValue c).Faithful) (depth : Nat) :
    (toValue c).text cc false depth =
      blockText cc depth c ++ if depth = 0 then [newline] else [] := by
  rw [text_toValue, tokens_text c (writable_of_escapable h.escapable),
    blockBody_sepText (faithful_items h)]
  simp [blockText, closeGap]

theorem value_form (hcc : cc.RoundTrips) (v : Value) (h : v.Faithful) (depth : Nat) :
    Form cc (depth + 1) v (v.text cc false (depth + 1)) := by
  have hcontainer : ∀ c : Container, (toValue c).Faithful →
      Form cc (depth + 1) (toValue c) ((toValue c).text cc false (depth + 1)) := fun c hc => by
    rw [container_text hc, if_neg (Nat.succ_ne_zero depth), List.append_nil]
    exact .block c
  cases v with
  | null => exact .word spelled_null
  | boolean b =>
    rw [text_scalar (v := .boolean b) rfl rfl]
    exact .word (spelled_boolean b)
  | number x =>
    rw [text_scalar (v := .number x) rfl rfl]
    exact .word (spelled_number hcc (Value.all_number.mp h.numbers))
  | string s =>
    have hs : Escapable s := Value.all_string.mp h.escapable s (List.mem_singleton_self s)
    obtain ⟨body, rfl, hw⟩ := quoted_of_escapable hs
    rw [text_scalar (v := .string (bodyVal body)) hw rfl]
    exact .quoted body
  | object ms => exact hcontainer (.object ms) h
  | array vs => exact hcontainer (.array vs) h

/-! ## Unique readability -/

theorem EndsValue.ends {r : Str} (h : EndsValue r) : Ends isPlain r := by
  obtain ⟨ch, w, rfl, hch⟩ := h
  intro b hb
  obtain rfl : ch = b := Option.some.inj hb
  rcases hch with rfl | rfl | rfl | hw
  · rfl
  · rfl
  · rfl
  · rcases whitespace_cases hw with rfl | rfl | rfl | rfl <;> rfl

theorem spelled_cons {w : Str} {v : Value} (h : Spelled cc w v) :
    ∃ ch w', w = ch :: w' ∧ isPlain ch = true := by
  obtain ⟨-, hne, hplain⟩ := h
  cases w with
  | nil => exact absurd rfl hne
  | cons ch w' => exact ⟨ch, w', rfl, hplain ch (List.mem_cons_self ..)⟩

theorem opener_not_plain (k : Kind) : isPlain k.opener = false := by cases k <;> rfl

theorem opener_ne_quote (k : Kind) : k.opener ≠ Delimiters.stringBeginEnd := by
  cases k <;> decide

theorem opener_injective {k k' : Kind} (h : k.opener = k'.opener) : k = k' := by
  cases k <;> cases k' <;> first | rfl | cases h

theorem closer_ne_quote (k : Kind) : Delimiters.stringBeginEnd ≠ k.closer := by
  cases k <;> decide

theorem form_ne_closer {v : Value} {w : Str} (h : Form cc depth v w) (k : Kind) (r r' : Str) :
    w ++ r ≠ k.closer :: r' := by
  have hplain : isPlain k.closer = false := by cases k <;> rfl
  have hopener : ∀ k' : Kind, k'.opener ≠ k.closer := by
    intro k'
    cases k <;> cases k' <;> decide
  cases h with
  | word h =>
    obtain ⟨ch, w, rfl, hch⟩ := spelled_cons h
    intro heq
    rw [(List.cons.inj heq).1, hplain] at hch
    cases hch
  | quoted body => exact fun heq => closer_ne_quote k (List.cons.inj heq).1
  | block c => exact fun heq => hopener c.kind (List.cons.inj heq).1

theorem form_ne_key {v : Value} {w r : Str} (h : Form cc depth v w) (hr : EndsValue r)
    (body : List StrChar) (u : Str) :
    w ++ r ≠ quotedText body ++ Delimiters.nameSeparator :: u := by
  intro heq
  cases h with
  | word h =>
    obtain ⟨ch, w, rfl, hch⟩ := spelled_cons h
    rw [(List.cons.inj heq).1] at hch
    cases hch
  | quoted body' =>
    obtain ⟨ch, w, rfl, hch⟩ := hr
    obtain ⟨-, hrest⟩ := quoted_unique heq
    rw [(List.cons.inj hrest).1] at hch
    exact absurd hch (by decide)
  | block c => exact opener_ne_quote c.kind (List.cons.inj heq).1

/-- Whichever form the other value has. -/
theorem word_unique (hcc : cc.RoundTrips) {v : Value} {w : Str} (hv : Spelled cc w v)
    (htext : v.text cc false (depth + 1) = w) :
    Unique (Value.text cc false (depth + 1)) Value.Faithful EndsValue v := by
  intro v' r r' hv' hr hr' h
  obtain ⟨ch, w', rfl, hch⟩ := spelled_cons hv
  have hform := value_form hcc v' hv' depth
  rw [htext] at h
  generalize v'.text cc false (depth + 1) = u at h hform
  cases hform with
  | word hspelled =>
    obtain ⟨rfl, rfl⟩ := unique_span hv.2.2 hspelled.2.2 hr.ends hr'.ends h
    exact ⟨Option.some.inj (hv.1.symm.trans hspelled.1), rfl⟩
  | quoted body =>
    rw [(List.cons.inj h).1] at hch
    cases hch
  | block c =>
    rw [(List.cons.inj h).1, opener_not_plain] at hch
    cases hch

theorem string_unique (hcc : cc.RoundTrips) {s : Str} (hs : Escapable s) :
    Unique (Value.text cc false (depth + 1)) Value.Faithful EndsValue (.string s) := by
  intro v' r r' hv' hr hr' h
  obtain ⟨body, rfl, hw⟩ := quoted_of_escapable hs
  have hform := value_form hcc v' hv' depth
  rw [text_scalar (v := .string (bodyVal body)) hw rfl] at h
  generalize v'.text cc false (depth + 1) = u at h hform
  cases hform with
  | word hspelled =>
    obtain ⟨ch, w', rfl, hch⟩ := spelled_cons hspelled
    rw [← (List.cons.inj h).1] at hch
    cases hch
  | quoted body' =>
    obtain ⟨rfl, rfl⟩ := quoted_unique h
    exact ⟨rfl, rfl⟩
  | block c => exact absurd (List.cons.inj h).1.symm (opener_ne_quote c.kind)

theorem itemText_cases {item : ItemPointer} (h : Escapable item.key) (depth : Nat) :
    (item.key = [] ∧ itemText cc depth item = item.value.text cc false depth) ∨
      ∃ body, bodyVal body = item.key ∧ itemText cc depth item =
        quotedText body ++ Delimiters.nameSeparator :: item.value.text cc false depth := by
  obtain ⟨key, v⟩ := item
  by_cases hnil : key = []
  · exact .inl ⟨hnil, by simp [itemText, keyText, hnil]⟩
  · obtain ⟨body, rfl, hw⟩ := quoted_of_escapable h
    exact .inr ⟨body, rfl, by simp [itemText, keyText, hnil, hw]⟩

theorem item_unique (hcc : cc.RoundTrips) {item : ItemPointer} (hitem : item.Faithful)
    (h : Unique (Value.text cc false (depth + 1)) Value.Faithful EndsValue item.value) :
    Unique (itemText cc (depth + 1)) ItemPointer.Faithful EndsValue item := by
  intro item' r r' hitem' hr hr' heq
  have hform := value_form hcc item.value hitem.value depth
  have hform' := value_form hcc item'.value hitem'.value depth
  obtain ⟨key, v⟩ := item
  obtain ⟨key', v'⟩ := item'
  rcases itemText_cases hitem.key (depth + 1) with ⟨rfl, htext⟩ | ⟨body, rfl, htext⟩ <;>
    rcases itemText_cases hitem'.key (depth + 1) with ⟨rfl, htext'⟩ | ⟨body', rfl, htext'⟩ <;>
    rw [htext, htext'] at heq
  · obtain ⟨rfl, rfl⟩ := h v' r r' hitem'.value hr hr' heq
    exact ⟨rfl, rfl⟩
  · rw [List.append_assoc] at heq
    exact absurd heq (form_ne_key hform hr body' _)
  · rw [List.append_assoc] at heq
    exact absurd heq.symm (form_ne_key hform' hr' body _)
  · rw [List.append_assoc, List.append_assoc] at heq
    obtain ⟨rfl, hrest⟩ := quoted_unique heq
    obtain ⟨rfl, rfl⟩ := h v' r r' hitem'.value hr hr' (List.cons.inj hrest).2
    exact ⟨rfl, rfl⟩

theorem item_ne_closer (hcc : cc.RoundTrips) {item : ItemPointer} (hitem : item.Faithful)
    (k : Kind) (r r' : Str) : itemText cc (depth + 1) item ++ r ≠ k.closer :: r' := by
  rcases itemText_cases hitem.key (depth + 1) with ⟨-, htext⟩ | ⟨body, -, htext⟩
  · rw [htext]
    exact form_ne_closer (value_form hcc item.value hitem.value depth) k r r'
  · rw [htext]
    exact fun heq => closer_ne_quote k (List.cons.inj heq).1

theorem block_unique (hcc : cc.RoundTrips) {c c' : Container} (hc : (toValue c).Faithful)
    (hc' : (toValue c').Faithful)
    (h : ∀ item ∈ itemPointers c,
      Unique (Value.text cc false (depth + 1)) Value.Faithful EndsValue item.value) {r r' : Str}
    (heq : blockText cc depth c ++ r = blockText cc depth c' ++ r') : c = c' ∧ r = r' := by
  obtain ⟨hopener, htail⟩ := List.cons.inj heq
  have hkind := opener_injective hopener
  rw [← hkind] at htail
  have hne : Delimiters.valueSeparator ≠ c.kind.closer := by cases c.kind <;> decide
  have hsep : ∀ r, EndsValue (Delimiters.valueSeparator :: r) := endsValue_cons endsLiteral_comma
  have hcloser : ∀ r, EndsValue (c.kind.closer :: r) :=
    endsValue_cons (endsLiteral_closer c.kind)
  have hitems := faithful_items hc
  have hunique := unique_sepText hne hsep hcloser
    (fun item hitem => item_ne_closer hcc hitem c.kind) hitems
    fun item hitem => item_unique hcc (hitems item hitem) (h item hitem)
  obtain ⟨hrange, rfl⟩ := hunique _ r r' (faithful_items hc') trivial trivial htail
  refine ⟨?_, rfl⟩
  have hvalue : toValue c = toValue c' := by
    rw [← wrap_itemPointers c, ← wrap_itemPointers c', hrange, hkind]
  cases c <;> cases c' <;> cases hvalue <;> rfl

theorem container_unique (hcc : cc.RoundTrips) {c : Container} (hc : (toValue c).Faithful)
    (h : ∀ item ∈ itemPointers c, item.value.Faithful → ∀ depth,
      Unique (Value.text cc false (depth + 1)) Value.Faithful EndsValue item.value) (depth : Nat) :
    Unique (Value.text cc false (depth + 1)) Value.Faithful EndsValue (toValue c) := by
  intro v' r r' hv' hr hr' heq
  have hform := value_form hcc v' hv' depth
  rw [container_text hc, if_neg (Nat.succ_ne_zero depth), List.append_nil] at heq
  generalize v'.text cc false (depth + 1) = u at heq hform
  cases hform with
  | word hspelled =>
    obtain ⟨ch, w', rfl, hch⟩ := spelled_cons hspelled
    rw [← (List.cons.inj heq).1, opener_not_plain] at hch
    cases hch
  | quoted body => exact absurd (List.cons.inj heq).1 (opener_ne_quote c.kind)
  | block c' =>
    obtain ⟨rfl, rfl⟩ := block_unique hcc hc hv' (fun item hitem =>
      h item hitem (faithful_items hc item hitem).value (depth + 1)) heq
    exact ⟨rfl, rfl⟩

/-- **The compact text of a value is read uniquely** in front of what may come behind it. -/
theorem value_unique (hcc : cc.RoundTrips) (v : Value) : v.Faithful → ∀ depth,
    Unique (Value.text cc false (depth + 1)) Value.Faithful EndsValue v := by
  induction v using Value.induct with
  | null => exact fun _ _ => word_unique hcc spelled_null (text_scalar rfl rfl)
  | boolean b => exact fun _ _ => word_unique hcc (spelled_boolean b) (text_scalar rfl rfl)
  | number x =>
    exact fun h _ => word_unique hcc (spelled_number hcc (Value.all_number.mp h.numbers))
      (text_scalar rfl rfl)
  | string s =>
    exact fun h _ => string_unique hcc
      (Value.all_string.mp h.escapable s (List.mem_singleton_self s))
  | object ms ih =>
    exact fun h => container_unique (c := .object ms) hcc h (List.forall_mem_map.mpr ih)
  | array vs ih =>
    exact fun h => container_unique (c := .array vs) hcc h (List.forall_mem_map.mpr ih)

/-! ## Whitespace -/

/-- Nothing in the text is whitespace between tokens. -/
def Compact (w : Str) : Prop := Contributes w w

theorem compact_moreText {range : List ItemPointer}
    (h : ∀ item ∈ range, Compact (itemText cc depth item)) :
    Compact (moreText (itemText cc depth) Delimiters.valueSeparator range) := by
  have hcomma : Compact [Delimiters.valueSeparator] := contributes_byte rfl (by decide)
  induction range with
  | nil => exact Contributes.nil
  | cons item range ih =>
    rw [List.forall_mem_cons] at h
    exact hcomma.append (h.1.append (ih h.2))

theorem compact_block {c : Container}
    (h : ∀ item ∈ itemPointers c, Compact (itemText cc (depth + 1) item)) :
    Compact (blockText cc depth c) := by
  have hopener : Compact [c.kind.opener] :=
    contributes_byte (by cases c <;> rfl) (opener_ne_quote c.kind)
  have hcloser : Compact [c.kind.closer] :=
    contributes_byte (by cases c <;> rfl) (closer_ne_quote c.kind).symm
  have hitems : Compact (sepText (itemText cc (depth + 1)) Delimiters.valueSeparator
      (itemPointers c)) := by
    cases hrange : itemPointers c with
    | nil => exact Contributes.nil
    | cons item range =>
      rw [hrange, List.forall_mem_cons] at h
      exact h.1.append (compact_moreText h.2)
  exact hopener.append (hitems.append hcloser)

theorem compact_item {item : ItemPointer} (hitem : item.Faithful)
    (h : Compact (item.value.text cc false depth)) : Compact (itemText cc depth item) := by
  have hcolon : Compact [Delimiters.nameSeparator] := contributes_byte rfl (by decide)
  rcases itemText_cases hitem.key depth with ⟨-, htext⟩ | ⟨body, -, htext⟩
  · rw [htext]
    exact h
  · rw [htext]
    exact (contributes_quoted body).append (hcolon.append h)

theorem compact_container {c : Container} (hc : (toValue c).Faithful)
    (h : ∀ item ∈ itemPointers c, item.value.Faithful → ∀ depth,
      Compact (item.value.text cc false (depth + 1))) (depth : Nat) :
    Compact ((toValue c).text cc false (depth + 1)) := by
  rw [container_text hc, if_neg (Nat.succ_ne_zero depth), List.append_nil]
  refine compact_block fun item hitem => ?_
  have hfaithful := faithful_items hc item hitem
  exact compact_item hfaithful (h item hitem hfaithful.value (depth + 1))

theorem compact_text (hcc : cc.RoundTrips) (v : Value) : v.Faithful → ∀ depth,
    Compact (v.text cc false (depth + 1)) := by
  have hscalar : ∀ {v : Value}, v.Faithful → v.opens = 0 → ∀ depth,
      Compact (v.text cc false (depth + 1)) := by
    intro v h hopens depth
    have hform := value_form hcc v h depth
    generalize v.text cc false (depth + 1) = u at hform
    cases hform with
    | word hspelled => exact contributes_plain hspelled.2.2
    | quoted body => exact contributes_quoted body
    | block c => cases c <;> cases hopens
  induction v using Value.induct with
  | null | boolean | number | string => exact fun h => hscalar h rfl
  | object ms ih =>
    exact fun h => compact_container (c := .object ms) h (List.forall_mem_map.mpr ih)
  | array vs ih =>
    exact fun h => compact_container (c := .array vs) h (List.forall_mem_map.mpr ih)

/-! ## Trees -/

theorem text_block {t : Container} (h : (toValue t).Faithful) :
    t.text cc false = blockText cc 0 t ++ [newline] := by
  have htext : t.text cc false = (toValue t).text cc false 0 := (text_toValue t).symm
  rw [htext, container_text h]
  rfl

theorem text_injective (hcc : cc.RoundTrips) {t t' : Container} (h : (toValue t).Faithful)
    (h' : (toValue t').Faithful) (heq : t.text cc false = t'.text cc false) : t = t' := by
  rw [text_block h, text_block h'] at heq
  exact (block_unique hcc h h' (fun item hitem =>
    value_unique hcc item.value (faithful_items h item hitem).value 0) heq).1

theorem bare_compact (hcc : cc.RoundTrips) {t : Container} (h : (toValue t).Faithful) :
    t.text cc false = bare (t.text cc false) ++ [newline] := by
  have hblock := compact_block (c := t) fun item hitem =>
    compact_item (faithful_items h item hitem)
      (compact_text hcc item.value (faithful_items h item hitem).value 0)
  rw [text_block h, hblock, show bare [newline] = [] from rfl, List.append_nil]

/-- What all calls together write. -/
def sent (cc : CharConv) (t : Container) (pretty : Bool) (caps : List Nat) : Str :=
  (serializeEach cc (Serializer.init t pretty) caps).1.flatMap Call.written

theorem bare_sent (hsolid : cc.Solid) {t : Container} (h : (toValue t).Faithful) {pretty : Bool}
    {caps : List Nat} (hcaps : (t.text cc pretty).length ≤ caps.sum) :
    bare (sent cc t pretty caps) = bare (t.text cc false) := by
  obtain ⟨htext, hfaults⟩ := init_accounts cc t pretty
  have hescapable : (t.faults cc pretty = 0 ↔ (toValue t).AllStrings Escapable) ∧
      ((toValue t).AllStrings Escapable → t.allText cc pretty = t.text cc pretty) :=
    faults_eq_zero t
  have hsent : sent cc t pretty caps = ((Serializer.init t pretty).allText cc).take caps.sum :=
    takes_each (hfaults.trans (hescapable.1.mpr h.escapable)) rfl
  rw [hsent, htext, hescapable.2 h.escapable, List.take_of_length_le hcaps]
  cases pretty with
  | false => rfl
  | true => exact bare_text hsolid t

/-- **What is written tells the trees apart**, with any printing and any buffers that have room for
it, also when only the bytes other than whitespace between the tokens are looked at. The parser does
not read the text of a tree with an empty key, but it is the text of no other tree. -/
theorem written_injective (cc : CharConv) (hcc : cc.RoundTrips) (hsolid : cc.Solid)
    (t t' : Container) (h : (toValue t).Faithful) (h' : (toValue t').Faithful)
    (pretty pretty' : Bool) (caps caps' : List Nat)
    (hcaps : (t.text cc pretty).length ≤ caps.sum)
    (hcaps' : (t'.text cc pretty').length ≤ caps'.sum) :
    bare (sent cc t pretty caps) = bare (sent cc t' pretty' caps') ↔ t = t' := by
  rw [bare_sent hsolid h hcaps, bare_sent hsolid h' hcaps']
  constructor
  · intro heq
    refine text_injective hcc h h' ?_
    rw [bare_compact hcc h, heq, ← bare_compact hcc h']
  · rintro rfl
    rfl

/-- `{"":"a"}` and `{"a":null}` are written as `{"a"}` and `{"a":null}`. -/
theorem written_injective_emptyKey :
    sent .binary (.object [([], .string [0x61])]) false [9] =
        [0x7b, 0x22, 0x61, 0x22, 0x7d, 0x0a] ∧
      bare (sent .binary (.object [([], .string [0x61])]) false [9]) ≠
        bare (sent .binary (.object [([0x61], .null)]) true [9, 9]) :=
  ⟨rfl, fun h => by
    have heq := (written_injective .binary binary_roundTrips binary_solid
      (.object [([], .string [0x61])]) (.object [([0x61], .null)])
      ⟨by decide, by decide⟩ ⟨by decide, by decide⟩ false true [9] [9, 9] (by decide)
      (by decide)).mp h
    cases heq⟩

end Jopp
