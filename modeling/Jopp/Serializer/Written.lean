import Jopp.Serializer.Verdict
import Jopp.Layout

/-!
# Jopp.Serializer.Written

The text of a tree as text of the grammar. `blockBody` is what stands between the delimiters of a
block, `KeyWritten` says how the key of an item appears in it, and `Laid` that the value of an item
is the text of a derivation tree (`value_laid`). Where no object has the empty key the whole text is
a document, with a line break behind it (`written_document`).
-/

namespace Jopp

variable {cc : CharConv} {pretty : Bool} {depth : Nat} {k : Kind}

/-! ## What a tree may consist of -/

def Value.keys : Value → List Str
  | .object ms => ms.map Prod.fst
  | _ => []

def Value.KeysNonEmpty (v : Value) : Prop := v.All fun n => [] ∉ n.keys

instance (v : Value) : Decidable v.KeysNonEmpty := inferInstanceAs (Decidable (v.All _))

theorem all_container {P : Value → Prop} {c : Container} :
    (toValue c).All P ↔ P (toValue c) ∧ ∀ item ∈ itemPointers c, item.value.All P := by
  cases c with
  | object ms =>
    have hitems : (∀ item ∈ itemPointers (.object ms), item.value.All P) ↔
        ∀ kv ∈ ms, kv.2.All P := List.forall_mem_map
    rw [hitems]
    exact Value.all_object
  | array vs =>
    have hitems : (∀ item ∈ itemPointers (.array vs), item.value.All P) ↔
        ∀ v ∈ vs, v.All P := List.forall_mem_map
    rw [hitems]
    exact Value.all_array

theorem all_item {P : Value → Prop} {c : Container} (h : (toValue c).All P) {item : ItemPointer}
    (hitem : item ∈ itemPointers c) : item.value.All P := (all_container.mp h).2 item hitem

theorem mem_nodes_self (v : Value) : v ∈ v.nodes := by
  cases v <;> exact List.mem_cons_self ..

/-! ## Literals -/

/-- The words for literals. -/
def Spelled (cc : CharConv) (w : Str) (v : Value) : Prop :=
  makeValue cc w = some v ∧ w ≠ [] ∧ ∀ ch ∈ w, isPlain ch = true

theorem spelled_plain : PlainLiterals cc (Spelled cc) := fun _ _ h => h

theorem spelled_null : Spelled cc nullToString .null := ⟨rfl, by decide, List.all_eq_true.mp rfl⟩

theorem spelled_boolean (b : Bool) : Spelled cc (booleanToString b) (.boolean b) := by
  cases b <;> exact ⟨rfl, by decide, List.all_eq_true.mp rfl⟩

theorem spelled_number (hcc : cc.RoundTrips) {x : Number} (hx : x.isNaN = false) :
    Spelled cc (numberToString cc x) (.number x) := by
  obtain ⟨hf, ht, hn⟩ := hcc.ne_literal x hx
  refine ⟨?_, hcc.ne_nil x hx, hcc.plain x hx⟩
  simp only [makeValue, if_neg hf, if_neg ht, if_neg hn, hcc.toNumber_toString x hx]

theorem lineBreak_blank : ∀ ch ∈ lineBreak pretty, isWhitespace ch = true := by
  cases pretty <;> exact List.all_eq_true.mp rfl

theorem indent_blank : ∀ ch ∈ indent pretty depth, isWhitespace ch = true := by
  intro ch hch
  cases pretty with
  | false => cases hch
  | true => rw [List.eq_of_mem_replicate hch]; rfl

/-- What precedes an item on its line. -/
def itemGap (pretty : Bool) (depth : Nat) : Blank :=
  ⟨lineBreak pretty ++ indent pretty depth,
    List.forall_mem_append.mpr ⟨lineBreak_blank, indent_blank⟩⟩

/-- What precedes a closing delimiter, which goes on a line of its own. -/
def closeGap (pretty : Bool) (depth : Nat) : Blank :=
  ⟨if pretty then [newline] ++ List.replicate depth horizontalTab else [], by
    intro ch hch
    cases pretty with
    | false => cases hch
    | true =>
      rcases List.mem_cons.mp hch with rfl | hch
      · rfl
      · rw [List.eq_of_mem_replicate hch]; rfl⟩

theorem closeText_eq (terminator : Byte) :
    closeText pretty depth terminator =
      (closeGap pretty depth).val ++ terminator :: if depth = 0 then [newline] else [] := by
  simp [closeText, closeGap]

/-! ## Items -/

/-- The key of an item, as it is written in a block of kind `k`. -/
structure KeyWritten (pretty : Bool) (depth : Nat) (key : Str) (label : Label k) : Prop where
  text : ∃ keyPart, keyText pretty key = some keyPart ∧
    label.text = (itemGap pretty depth).val ++ keyPart
  key_eq : label.key = key

theorem keyWritten_element : KeyWritten pretty depth [] (.element (itemGap pretty depth)) :=
  ⟨⟨[], rfl, by simp [Label.text]⟩, rfl⟩

theorem keyWritten_member {key : Str} (hne : key ≠ []) (hesc : Escapable key) :
    ∃ label : Label .object, KeyWritten pretty depth key label := by
  cases hw : wrapString key with
  | none => exact absurd hesc (wrapString_eq_none.mp hw)
  | some wrapped =>
    obtain ⟨body, rfl, rfl⟩ := wrapString_quoted hw
    refine ⟨.member (itemGap pretty depth) body Blank.empty
      ⟨if pretty then [space] else [], by cases pretty <;> exact List.all_eq_true.mp rfl⟩,
      ⟨quotedText body ++ [Delimiters.nameSeparator] ++ if pretty then [space] else [], ?_, ?_⟩,
      rfl⟩
    · simp [keyText, hne, hw]
    · simp [Label.text, Blank.empty]

/-- The text of a value with `depth` blocks open around it. -/
def Value.text (cc : CharConv) (pretty : Bool) (depth : Nat) (v : Value) : Str :=
  Drain.text ((headText cc pretty v).getD []) (v.tokens cc pretty depth)

structure Value.Writable (cc : CharConv) (pretty : Bool) (depth : Nat) (v : Value) : Prop where
  head : headText cc pretty v ≠ none
  tokens : none ∉ v.tokens cc pretty depth

theorem writable_of_escapable {v : Value} (h : v.AllStrings Escapable) :
    v.Writable cc pretty depth := by
  have hnone := mt (none_mem_tokens cc pretty v depth).mp (not_not.mpr h)
  rw [not_or] at hnone
  exact ⟨hnone.1, hnone.2⟩

/-- What stands between the delimiters of a block, up to the blanks before the closing one. -/
def blockBody (cc : CharConv) (pretty : Bool) (depth : Nat) (range : List ItemPointer) : Str :=
  lineBreak pretty ++ Drain.queueText (blockTokens cc pretty depth true range)

theorem queueText_item {item : ItemPointer} {range : List ItemPointer} {keyPart : Str}
    (hpart : keyText pretty item.key = some keyPart)
    (hval : item.value.Writable cc pretty depth) (first : Bool) :
    Drain.queueText (blockTokens cc pretty depth first (item :: range)) =
      beforeItem pretty depth first ++ keyPart ++ item.value.text cc pretty depth ++
        Drain.queueText (blockTokens cc pretty depth false range) := by
  cases hhead : headText cc pretty item.value with
  | none => exact absurd hhead hval.head
  | some head =>
    have htoken : itemToken cc pretty depth first item.key item.value =
        some (beforeItem pretty depth first ++ keyPart ++ head) := by
      simp only [itemToken, hpart, hhead]
    rw [blockTokens, htoken, Drain.queueText, Drain.queueText_append hval.tokens]
    simp [Value.text, hhead, Drain.text]

theorem blockBody_cons {label : Label k} (item : ItemPointer) {range : List ItemPointer}
    (hkey : KeyWritten pretty depth item.key label)
    (hval : item.value.Writable cc pretty depth) :
    blockBody cc pretty depth (item :: range) =
      label.text ++ item.value.text cc pretty depth ++
        Drain.queueText (blockTokens cc pretty depth false range) := by
  obtain ⟨keyPart, hpart, hlabel⟩ := hkey.text
  rw [blockBody, queueText_item hpart hval true, hlabel]
  simp [beforeItem, itemGap]

/-- Behind an item the block goes on with a comma and what it would start with. -/
theorem queueText_more {label : Label k} {item : ItemPointer} {range : List ItemPointer}
    (hkey : KeyWritten pretty depth item.key label)
    (hval : item.value.Writable cc pretty depth) :
    Drain.queueText (blockTokens cc pretty depth false (item :: range)) =
      Delimiters.valueSeparator :: blockBody cc pretty depth (item :: range) := by
  obtain ⟨keyPart, hpart, -⟩ := hkey.text
  rw [blockBody, queueText_item hpart hval false, queueText_item hpart hval true]
  simp [beforeItem]

theorem tokens_text (c : Container) (h : (toValue c).Writable cc pretty depth) :
    c.openText pretty ++ Drain.queueText (c.tokens cc pretty depth) =
      c.kind.opener :: (blockBody cc pretty (depth + 1) (itemPointers c) ++
        (closeGap pretty depth).val ++ [c.kind.closer]) ++
          if depth = 0 then [newline] else [] := by
  have hblock : none ∉ blockTokens cc pretty (depth + 1) true (itemPointers c) := fun hn => by
    have htokens := h.tokens
    rw [tokens_toValue] at htokens
    exact htokens (List.mem_append_left _ hn)
  have hterminator : c.terminator = c.kind.closer := by cases c <;> rfl
  have hstarter : c.starter = c.kind.opener := by cases c <;> rfl
  unfold Container.openText Container.tokens blockBody
  rw [Drain.queueText_append hblock, closeText_eq, hstarter, hterminator]
  simp [Drain.queueText]

theorem text_toValue (c : Container) :
    (toValue c).text cc pretty depth =
      c.openText pretty ++ Drain.queueText (c.tokens cc pretty depth) := by
  unfold Value.text Drain.text
  rw [tokens_toValue]
  cases c <;> rfl

/-! ## Derivation trees -/

/-- The value is the text of a derivation tree, with the value as written. -/
def Laid (cc : CharConv) (pretty : Bool) (depth : Nat) (v : Value) : Prop :=
  ∃ cst : Cst (Spelled cc), cst.text = v.text cc pretty depth ∧ cst.raw = v

theorem block_items (range : List ItemPointer) :
    (∀ item ∈ range, (∃ label : Label k, KeyWritten pretty depth item.key label) ∧
      item.value.Writable cc pretty depth ∧ Laid cc pretty depth item.value) →
    ∀ gap : Blank, ∃ items : Items (Spelled cc) k,
      items.text = blockBody cc pretty depth range ++ gap.val ∧
      items.entries = range.map fun item => (item.key, item.value) := by
  induction range with
  | nil =>
    intro _ gap
    refine ⟨.close ⟨lineBreak pretty ++ gap.val,
      List.forall_mem_append.mpr ⟨lineBreak_blank, gap.property⟩⟩, ?_, rfl⟩
    simp [Items.text, blockBody, blockTokens, Drain.queueText]
  | cons item range ih =>
    intro h gap
    rw [List.forall_mem_cons] at h
    obtain ⟨⟨⟨label, hkey⟩, hval, cst, htext, hraw⟩, hrest⟩ := h
    rw [blockBody_cons item hkey hval]
    cases range with
    | nil =>
      refine ⟨.last label cst gap, ?_, ?_⟩
      · simp [Items.text, htext, blockTokens, Drain.queueText]
      · simp [Items.entries, hkey.key_eq, hraw]
    | cons next range =>
      obtain ⟨items, hitems, hentries⟩ := ih hrest gap
      obtain ⟨⟨nextLabel, hnextKey⟩, hnext, -⟩ := hrest next (List.mem_cons_self ..)
      refine ⟨.more label cst Blank.empty items, ?_, ?_⟩
      · simp [Items.text, htext, hitems, queueText_more hnextKey hnext, Blank.empty]
      · simp [Items.entries, hkey.key_eq, hraw, hentries]

theorem keys_written {c : Container} (hesc : (toValue c).AllStrings Escapable)
    (hkeys : [] ∉ (toValue c).keys) {item : ItemPointer} (hitem : item ∈ itemPointers c) :
    ∃ label : Label c.kind, KeyWritten pretty depth item.key label := by
  cases c with
  | object ms =>
    obtain ⟨kv, hkv, rfl⟩ := List.mem_map.mp hitem
    refine keyWritten_member (fun hk => hkeys ?_) (allStrings_object.mp hesc kv hkv).1
    exact List.mem_map.mpr ⟨kv, hkv, hk⟩
  | array vs =>
    obtain ⟨v, -, rfl⟩ := List.mem_map.mp hitem
    exact ⟨_, keyWritten_element⟩

theorem wrap_itemPointers (c : Container) :
    c.kind.wrap ((itemPointers c).map fun item => (item.key, item.value)) = toValue c := by
  cases c <;> simp [Container.kind, Kind.wrap, itemPointers, toValue, Function.comp_def]

theorem container_items {c : Container} (hesc : (toValue c).AllStrings Escapable)
    (hkeys : [] ∉ (toValue c).keys)
    (h : ∀ item ∈ itemPointers c, Laid cc pretty (depth + 1) item.value) :
    ∃ items : Items (Spelled cc) c.kind,
      (toValue c).text cc pretty depth = c.kind.opener :: (items.text ++ [c.kind.closer]) ++
        (if depth = 0 then [newline] else []) ∧
      c.kind.wrap items.entries = toValue c := by
  obtain ⟨items, htext, hentries⟩ := block_items (k := c.kind) (itemPointers c)
    (fun item hitem => ⟨keys_written hesc hkeys hitem,
      writable_of_escapable (all_item hesc hitem), h item hitem⟩) (closeGap pretty depth)
  refine ⟨items, ?_, ?_⟩
  · rw [text_toValue, tokens_text c (writable_of_escapable hesc), htext]
  · rw [hentries, wrap_itemPointers]

theorem container_laid {c : Container}
    (h : ∀ item ∈ itemPointers c, ∀ depth, item.value.AllStrings Escapable →
      item.value.NumbersOnly → item.value.KeysNonEmpty → Laid cc pretty (depth + 1) item.value) :
    ∀ depth, (toValue c).AllStrings Escapable → (toValue c).NumbersOnly →
      (toValue c).KeysNonEmpty → Laid cc pretty (depth + 1) (toValue c) := by
  intro depth hesc hnum hkeys
  obtain ⟨items, htext, hraw⟩ := container_items hesc (hkeys _ (mem_nodes_self _))
    fun item hitem => h item hitem (depth + 1) (all_item hesc hitem) (all_item hnum hitem)
      (all_item hkeys hitem)
  refine ⟨.container c.kind items, ?_, hraw⟩
  rw [htext, if_neg (Nat.succ_ne_zero depth), List.append_nil]
  rfl

theorem text_scalar {v : Value} {head : Str} (hhead : headText cc pretty v = some head)
    (htokens : v.tokens cc pretty depth = []) : v.text cc pretty depth = head := by
  simp [Value.text, hhead, htokens, Drain.text, Drain.queueText]

/-- A value inside a container is laid out if no key in it is empty. -/
theorem value_laid (hcc : cc.RoundTrips) (v : Value) :
    ∀ depth, v.AllStrings Escapable → v.NumbersOnly → v.KeysNonEmpty →
      Laid cc pretty (depth + 1) v := by
  induction v using Value.induct with
  | null =>
    exact fun _ _ _ _ => ⟨.literal _ _ spelled_null, (text_scalar rfl rfl).symm, rfl⟩
  | boolean b =>
    exact fun _ _ _ _ => ⟨.literal _ _ (spelled_boolean b), (text_scalar rfl rfl).symm, rfl⟩
  | number x =>
    exact fun _ _ hnum _ => ⟨.literal _ _ (spelled_number hcc (Value.all_number.mp hnum)),
      (text_scalar rfl rfl).symm, rfl⟩
  | string s =>
    intro depth hesc _ _
    have hs : Escapable s := Value.all_string.mp hesc s (List.mem_singleton_self s)
    cases hw : wrapString s with
    | none => exact absurd hs (wrapString_eq_none.mp hw)
    | some w =>
      obtain ⟨body, hbody, hval⟩ := wrapString_quoted hw
      refine ⟨.string body, ?_, congrArg Value.string hval⟩
      exact hbody.trans (text_scalar (v := .string s) hw rfl).symm
  | object ms ih => exact container_laid (c := .object ms) (List.forall_mem_map.mpr ih)
  | array vs ih => exact container_laid (c := .array vs) (List.forall_mem_map.mpr ih)

/-- The whole text is a document and a line break. -/
theorem written_document (hcc : cc.RoundTrips) (pretty : Bool) {t : Container}
    (hesc : (toValue t).AllStrings Escapable) (hnum : (toValue t).NumbersOnly)
    (hkeys : (toValue t).KeysNonEmpty) :
    ∃ d : Document (Spelled cc), t.text cc pretty = d.text ++ [newline] ∧ d.raw = toValue t := by
  have hlaid : ∀ item ∈ itemPointers t, Laid cc pretty (0 + 1) item.value := fun item hitem =>
    value_laid hcc item.value 0 (all_item hesc hitem) (all_item hnum hitem) (all_item hkeys hitem)
  obtain ⟨items, htext, hraw⟩ := container_items hesc (hkeys _ (mem_nodes_self _)) hlaid
  refine ⟨⟨Blank.empty, t.kind, items⟩, ?_, hraw⟩
  rw [text_toValue] at htext
  rw [Container.text, Drain.text, htext]
  simp [Document.text, Blank.empty]

end Jopp
