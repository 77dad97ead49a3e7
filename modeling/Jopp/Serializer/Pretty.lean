import Jopp.Serializer.Verdict
import Jopp.Layout

/-!
# Jopp.Serializer.Pretty

What printing prettily changes.

* `bare`: a text without the spaces, tabs and newlines outside of its strings. Token by token the
  two modes write texts with the same bare text (`tokens_sameBare`).
* `Value.rows`: the lines of a tree, with the number of tabs each begins with. They are what
  printing prettily writes (`prettyText_rows`).
-/

namespace Jopp

variable {cc : CharConv}

/-! ## Whitespace between tokens -/

def isLayoutBlank (ch : Byte) : Bool := ch == space || ch == horizontalTab || ch == newline

def bareFrom : Place → Str → Str
  | _, [] => []
  | place, ch :: w =>
    if place.quoted = false ∧ isLayoutBlank ch = true then bareFrom (place.next ch) w
    else ch :: bareFrom (place.next ch) w

/-- The text without the spaces, tabs and newlines outside of string literals. -/
def bare (w : Str) : Str := bareFrom .outside w

theorem bareFrom_quiet {place : Place} (h : place.quoted = false) (w : Str) :
    bareFrom place w = bare w := by
  rcases quoted_eq_false.mp h with rfl | rfl
  · rfl
  · induction w with
    | nil => rfl
    | cons ch w ih =>
      by_cases hblank : isWhitespace ch = true
      · simp only [bare, bareFrom, next_blank hblank (.inl rfl), next_blank hblank (.inr rfl),
          Place.quoted] at ih ⊢
        rw [ih]
      · have hnext : Place.afterColon.next ch = Place.outside.next ch := by
          simp [Place.next, hblank]
        simp only [bare, bareFrom, hnext, Place.quoted]

/-- Whatever follows, `u` adds `b` to the bare text. -/
def Contributes (u b : Str) : Prop := ∀ w, bare (u ++ w) = b ++ bare w

theorem Contributes.nil : Contributes [] [] := fun _ => rfl

theorem Contributes.append {u v b c : Str} (hu : Contributes u b) (hv : Contributes v c) :
    Contributes (u ++ v) (b ++ c) := fun w => by
  rw [List.append_assoc, hu, hv, List.append_assoc]

theorem Contributes.bare_eq {u b : Str} (h : Contributes u b) : bare u = b := by
  have hu := h []
  rwa [List.append_nil, show bare [] = [] from rfl, List.append_nil] at hu

theorem isWhitespace_of_layoutBlank {ch : Byte} (h : isLayoutBlank ch = true) :
    isWhitespace ch = true := by
  rw [isWhitespace, show (ch == space || ch == horizontalTab || ch == newline) = true from h]
  rfl

theorem contributes_blank {u : Str} (h : ∀ ch ∈ u, isLayoutBlank ch = true) :
    Contributes u [] := by
  intro w
  induction u with
  | nil => rfl
  | cons ch u ih =>
    rw [List.forall_mem_cons] at h
    have hnext : Place.outside.next ch = .outside :=
      next_blank (isWhitespace_of_layoutBlank h.1) (.inl rfl)
    show bareFrom .outside (ch :: (u ++ w)) = _
    rw [bareFrom, if_pos ⟨rfl, h.1⟩, hnext]
    exact ih h.2

theorem contributes_solid {u : Str}
    (h : ∀ ch ∈ u, isWhitespace ch = false ∧ ch ≠ Delimiters.stringBeginEnd) :
    Contributes u u := by
  intro w
  induction u with
  | nil => rfl
  | cons ch u ih =>
    rw [List.forall_mem_cons] at h
    obtain ⟨⟨hw, hquote⟩, hu⟩ := h
    have hblank : isLayoutBlank ch = false := by
      by_contra hblank
      rw [isWhitespace_of_layoutBlank (by simpa using hblank)] at hw
      cases hw
    show bareFrom .outside (ch :: (u ++ w)) = _
    rw [bareFrom, if_neg (by simp [hblank]), bareFrom_quiet (next_quiet rfl hquote), ih hu]
    rfl

theorem contributes_plain {u : Str} (h : ∀ ch ∈ u, isPlain ch = true) : Contributes u u :=
  contributes_solid fun ch hch => by
    obtain ⟨hw, -, -, -, -, -, hquote⟩ := plain_ne (h ch hch)
    exact ⟨hw, hquote⟩

theorem bareFrom_body (body : List StrChar) (w : Str) :
    bareFrom .inString (bodyText body ++ w) = bodyText body ++ bareFrom .inString w := by
  induction body with
  | nil => rfl
  | cons x body ih =>
    cases x with
    | raw ch h =>
      show bareFrom .inString (ch :: (bodyText body ++ w)) = ch :: (bodyText body ++ _)
      rw [bareFrom, if_neg (by simp [Place.quoted]), next_raw h, ih]
    | escaped escChar val h =>
      exact congrArg (beginEscSeq :: escChar :: ·) ih

theorem contributes_quoted (body : List StrChar) :
    Contributes (quotedText body) (quotedText body) := by
  intro w
  have hclose : bareFrom .inString (Delimiters.stringBeginEnd :: w) =
      Delimiters.stringBeginEnd :: bare w := rfl
  show Delimiters.stringBeginEnd :: bareFrom .inString (bodyText body ++ [_] ++ w) = _
  rw [List.append_assoc, bareFrom_body]
  simp [quotedText, hclose]

theorem contributes_wrapString {s t : Str} (h : wrapString s = some t) : Contributes t t := by
  obtain ⟨body, rfl, -⟩ := wrapString_quoted h
  exact contributes_quoted body

/-! ## Token by token -/

/-- Both cannot be escaped, or both add the same to the bare text. -/
def SameBare : Option Str → Option Str → Prop
  | none, none => True
  | some u, some v => ∃ b, Contributes u b ∧ Contributes v b
  | _, _ => False

theorem contributes_lineBreak (pretty : Bool) : Contributes (lineBreak pretty) [] :=
  contributes_blank fun ch hch => by
    cases pretty with
    | false => cases hch
    | true => rw [List.mem_singleton.mp hch]; rfl

theorem contributes_indent (pretty : Bool) (depth : Nat) : Contributes (indent pretty depth) [] :=
  contributes_blank fun ch hch => by
    cases pretty with
    | false => cases hch
    | true => rw [List.eq_of_mem_replicate hch]; rfl

theorem contributes_byte {ch : Byte} (h : isWhitespace ch = false)
    (hquote : ch ≠ Delimiters.stringBeginEnd) : Contributes [ch] [ch] :=
  contributes_solid fun c hc => by
    rw [List.mem_singleton.mp hc]
    exact ⟨h, hquote⟩

theorem contributes_beforeItem (pretty : Bool) (depth : Nat) (first : Bool) :
    Contributes (beforeItem pretty depth first)
      (if first then [] else [Delimiters.valueSeparator]) := by
  have hindent := contributes_indent pretty depth
  cases first with
  | true => exact hindent
  | false =>
    have hcomma : Contributes [Delimiters.valueSeparator] [Delimiters.valueSeparator] :=
      contributes_byte rfl (by decide)
    exact (hcomma.append (contributes_lineBreak pretty)).append hindent

theorem contributes_closeText (pretty : Bool) (depth : Nat) {terminator : Byte}
    (h : isWhitespace terminator = false) (hquote : terminator ≠ Delimiters.stringBeginEnd) :
    Contributes (closeText pretty depth terminator) [terminator] := by
  have hbefore : Contributes
      (if pretty then [newline] ++ List.replicate depth horizontalTab else []) [] := by
    cases pretty with
    | false => exact .nil
    | true => exact (contributes_lineBreak true).append (contributes_indent true depth)
  have hafter : Contributes (if depth = 0 then [newline] else []) [] := by
    split
    · exact contributes_lineBreak true
    · exact .nil
  exact (hbefore.append (contributes_byte h hquote)).append hafter

theorem sameBare_keyText (key : Str) : SameBare (keyText true key) (keyText false key) := by
  unfold keyText
  by_cases hk : key = []
  · rw [if_pos hk, if_pos hk]
    exact ⟨[], .nil, .nil⟩
  · rw [if_neg hk, if_neg hk]
    cases hw : wrapString key with
    | none => trivial
    | some wrapped =>
      have hkey : Contributes (wrapped ++ [Delimiters.nameSeparator])
          (wrapped ++ [Delimiters.nameSeparator]) :=
        (contributes_wrapString hw).append (contributes_byte rfl (by decide))
      have hspace : Contributes [space] [] := contributes_blank fun ch hch => by
        rw [List.mem_singleton.mp hch]
        rfl
      exact ⟨_, hkey.append hspace, hkey.append .nil⟩

theorem sameBare_refl {u : Str} (h : Contributes u u) : SameBare (some u) (some u) := ⟨u, h, h⟩

theorem sameBare_headText (hcc : cc.Solid) (v : Value) :
    SameBare (headText cc true v) (headText cc false v) := by
  have hopen : ∀ {starter : Byte}, isWhitespace starter = false →
      starter ≠ Delimiters.stringBeginEnd →
      SameBare (some ([starter] ++ lineBreak true)) (some ([starter] ++ lineBreak false)) :=
    fun h hquote => ⟨_, (contributes_byte h hquote).append (contributes_lineBreak true),
      (contributes_byte h hquote).append (contributes_lineBreak false)⟩
  cases v with
  | null => exact sameBare_refl (contributes_plain (List.all_eq_true.mp rfl))
  | boolean b =>
    have hplain : ∀ ch ∈ booleanToString b, isPlain ch = true := by
      cases b <;> exact List.all_eq_true.mp rfl
    exact sameBare_refl (contributes_plain hplain)
  | number x => exact sameBare_refl (contributes_solid (hcc x))
  | string s =>
    show SameBare (wrapString s) (wrapString s)
    cases hw : wrapString s with
    | none => trivial
    | some w => exact sameBare_refl (contributes_wrapString hw)
  | object ms => exact hopen rfl (by decide)
  | array vs => exact hopen rfl (by decide)

theorem sameBare_itemToken (hcc : cc.Solid) (depth : Nat) (first : Bool) (key : Str) (v : Value) :
    SameBare (itemToken cc true depth first key v) (itemToken cc false depth first key v) := by
  have hkey := sameBare_keyText key
  have hhead := sameBare_headText hcc v
  unfold itemToken
  cases hk : keyText true key <;> cases hk' : keyText false key <;> rw [hk, hk'] at hkey
  · trivial
  · exact hkey.elim
  · exact hkey.elim
  · cases hh : headText cc true v <;> cases hh' : headText cc false v <;> rw [hh, hh'] at hhead
    · trivial
    · exact hhead.elim
    · exact hhead.elim
    · obtain ⟨b, hb, hb'⟩ := hkey
      obtain ⟨c, hc, hc'⟩ := hhead
      exact ⟨_, ((contributes_beforeItem true depth first).append hb).append hc,
        ((contributes_beforeItem false depth first).append hb').append hc'⟩

theorem sameBare_blockTokens (hcc : cc.Solid) (depth : Nat) (range : List ItemPointer)
    (h : ∀ item ∈ range, List.Forall₂ SameBare (item.value.tokens cc true depth)
      (item.value.tokens cc false depth)) :
    ∀ first, List.Forall₂ SameBare (blockTokens cc true depth first range)
      (blockTokens cc false depth first range) := by
  induction range with
  | nil => exact fun _ => .nil
  | cons item range ih =>
    intro first
    rw [List.forall_mem_cons] at h
    exact .cons (sameBare_itemToken hcc depth first item.key item.value)
      (List.rel_append h.1 (ih h.2 false))

theorem tokens_sameBare (hcc : cc.Solid) (v : Value) :
    ∀ depth, List.Forall₂ SameBare (v.tokens cc true depth) (v.tokens cc false depth) := by
  have hclose : ∀ {terminator : Byte} (depth : Nat), isWhitespace terminator = false →
      terminator ≠ Delimiters.stringBeginEnd →
      SameBare (some (closeText true depth terminator)) (some (closeText false depth terminator)) :=
    fun depth h hquote => ⟨_, contributes_closeText true depth h hquote,
      contributes_closeText false depth h hquote⟩
  induction v using Value.induct with
  | null | boolean | number | string => exact fun _ => .nil
  | object ms ih =>
    intro depth
    simp only [Value.tokens, memberTokens_eq]
    refine List.rel_append (sameBare_blockTokens hcc _ _ ?_ true)
      (.cons (hclose depth rfl (by decide)) .nil)
    exact List.forall_mem_map.mpr fun kv hkv => ih kv hkv (depth + 1)
  | array vs ih =>
    intro depth
    simp only [Value.tokens, elementTokens_eq]
    refine List.rel_append (sameBare_blockTokens hcc _ _ ?_ true)
      (.cons (hclose depth rfl (by decide)) .nil)
    exact List.forall_mem_map.mpr fun v hv => ih v hv (depth + 1)

theorem queueText_sameBare {q q' : Drain.Queue Byte} (h : List.Forall₂ SameBare q q') :
    ∃ b, Contributes (Drain.queueText q) b ∧ Contributes (Drain.queueText q') b := by
  induction h with
  | nil => exact ⟨[], .nil, .nil⟩
  | @cons t t' q q' ht _ ih =>
    cases t <;> cases t'
    · exact ⟨[], .nil, .nil⟩
    · exact ht.elim
    · exact ht.elim
    · obtain ⟨b, hb, hb'⟩ := ht
      obtain ⟨c, hc, hc'⟩ := ih
      exact ⟨_, hb.append hc, hb'.append hc'⟩

/-- Without the whitespace between tokens the two texts are the same. -/
theorem bare_text (hcc : cc.Solid) (c : Container) :
    bare (c.text cc true) = bare (c.text cc false) := by
  have hstarter : Contributes [c.starter] [c.starter] := by
    cases c with
    | object ms =>
      show Contributes [Delimiters.beginObject] [Delimiters.beginObject]
      exact contributes_byte rfl (by decide)
    | array vs =>
      show Contributes [Delimiters.beginArray] [Delimiters.beginArray]
      exact contributes_byte rfl (by decide)
  have htokens := tokens_sameBare hcc (toValue c) 0
  rw [tokens_toValue, tokens_toValue] at htokens
  obtain ⟨b, hb, hb'⟩ := queueText_sameBare htokens
  have hpretty := (hstarter.append (contributes_lineBreak true)).append hb
  have hcompact := (hstarter.append (contributes_lineBreak false)).append hb'
  exact hpretty.bare_eq.trans hcompact.bare_eq.symm

/-! ## Lines -/

/-- A line behind the first one. -/
structure Row where
  /-- The line before ends with a comma. -/
  comma : Bool
  tabs : Nat
  /-- `none` for an item that cannot be escaped. -/
  content : Option Str

/-- The lines as text; nothing is written of an item that cannot be escaped, and behind the last
line comes another line break. -/
def rowsText : List Row → Str
  | [] => [newline]
  | ⟨comma, tabs, some content⟩ :: rows =>
    (if comma then [Delimiters.valueSeparator] else []) ++
      newline :: (List.replicate tabs horizontalTab ++ content ++ rowsText rows)
  | ⟨comma, _, none⟩ :: _ => if comma then [] else [newline]

/-- What stands on the line of an item: its key, and the value up to an opening delimiter. -/
def itemContent (cc : CharConv) (key : Str) (v : Value) : Option Str :=
  match keyText true key with
  | none => none
  | some keyPart =>
    match v with
    | .object _ => some (keyPart ++ [Delimiters.beginObject])
    | .array _ => some (keyPart ++ [Delimiters.beginArray])
    | v => (headText cc true v).map (keyPart ++ ·)

/-- The line with a closing delimiter. Between the delimiters of an empty container stands an empty
line. -/
def endRows (enclosing : Nat) (isEmpty : Bool) (terminator : Byte) : List Row :=
  (if isEmpty then [⟨false, 0, some []⟩] else []) ++ [⟨false, enclosing, some [terminator]⟩]

mutual

/-- The lines behind the one a value starts on, with the number of containers around the value. -/
def Value.rows (cc : CharConv) (enclosing : Nat) : Value → List Row
  | .object ms => memberRows cc (enclosing + 1) true ms ++
      endRows enclosing ms.isEmpty Delimiters.endObject
  | .array vs => elementRows cc (enclosing + 1) true vs ++
      endRows enclosing vs.isEmpty Delimiters.endArray
  | _ => []
termination_by structural v => v

def memberRows (cc : CharConv) (enclosing : Nat) (first : Bool) : List (Str × Value) → List Row
  | [] => []
  | (k, v) :: ms =>
    ⟨!first, enclosing, itemContent cc k v⟩ ::
      (v.rows cc enclosing ++ memberRows cc enclosing false ms)
termination_by structural ms => ms

def elementRows (cc : CharConv) (enclosing : Nat) (first : Bool) : List Value → List Row
  | [] => []
  | v :: vs =>
    ⟨!first, enclosing, itemContent cc [] v⟩ ::
      (v.rows cc enclosing ++ elementRows cc enclosing false vs)
termination_by structural vs => vs

end

def blockRows (cc : CharConv) (enclosing : Nat) (first : Bool) : List ItemPointer → List Row
  | [] => []
  | item :: range =>
    ⟨!first, enclosing, itemContent cc item.key item.value⟩ ::
      (item.value.rows cc enclosing ++ blockRows cc enclosing false range)

theorem memberRows_eq (enclosing : Nat) (first : Bool) (ms : List (Str × Value)) :
    memberRows cc enclosing first ms =
      blockRows cc enclosing first (itemPointers (.object ms)) := by
  induction ms generalizing first with
  | nil => rfl
  | cons kv ms ih => simp only [memberRows, ih]; rfl

theorem elementRows_eq (enclosing : Nat) (first : Bool) (vs : List Value) :
    elementRows cc enclosing first vs =
      blockRows cc enclosing first (itemPointers (.array vs)) := by
  induction vs generalizing first with
  | nil => rfl
  | cons v vs ih => simp only [elementRows, ih]; rfl

theorem rows_toValue (enclosing : Nat) (c : Container) :
    (toValue c).rows cc enclosing = blockRows cc (enclosing + 1) true (itemPointers c) ++
      endRows enclosing (itemPointers c).isEmpty c.terminator := by
  cases c with
  | object ms => simp [toValue, Value.rows, memberRows_eq, itemPointers, Container.terminator]
  | array vs => simp [toValue, Value.rows, elementRows_eq, itemPointers, Container.terminator]

/-! ## The lines are what is written -/

/-- An opening delimiter ends its line. -/
def headBreak : Value → Str
  | .object _ | .array _ => [newline]
  | _ => []

theorem itemToken_eq (enclosing : Nat) (first : Bool) (key : Str) (v : Value) :
    itemToken cc true enclosing first key v =
      (itemContent cc key v).map fun content =>
        beforeItem true enclosing first ++ content ++ headBreak v := by
  unfold itemToken itemContent
  cases keyText true key with
  | none => rfl
  | some keyPart =>
    cases v with
    | object ms | array vs => simp [headText, headBreak, lineBreak]
    | null | boolean b | number x => simp [headText, headBreak]
    | string s => cases h : wrapString s <;> simp [headText, headBreak, h]

theorem writes_item (cc : CharConv) (enclosing : Nat) (first : Bool) (key : Str) {v : Value}
    {queue : Drain.Queue Byte} {rows : List Row}
    (h : headBreak v ++ Drain.queueText queue = rowsText rows) :
    (if first then [newline] else []) ++
      Drain.queueText (itemToken cc true enclosing first key v :: queue) =
        rowsText (⟨!first, enclosing, itemContent cc key v⟩ :: rows) := by
  rw [itemToken_eq]
  cases itemContent cc key v with
  | none => cases first <;> rfl
  | some content =>
    cases first <;>
      simp [Drain.queueText, rowsText, beforeItem, lineBreak, indent, ← h]

theorem writes_more {enclosing : Nat} {range : List ItemPointer}
    (hitems : ∀ item ∈ range, ∀ queue rows, Drain.queueText queue = rowsText rows →
      headBreak item.value ++ Drain.queueText (item.value.tokens cc true enclosing ++ queue) =
        rowsText (item.value.rows cc enclosing ++ rows))
    {queue : Drain.Queue Byte} {rows : List Row} (h : Drain.queueText queue = rowsText rows) :
    Drain.queueText (blockTokens cc true enclosing false range ++ queue) =
      rowsText (blockRows cc enclosing false range ++ rows) := by
  induction range with
  | nil => exact h
  | cons item range ih =>
    rw [List.forall_mem_cons] at hitems
    have hrest := hitems.1 _ _ (ih hitems.2)
    have hitem := writes_item cc enclosing false item.key hrest
    simpa [blockTokens, blockRows] using hitem

/-- A block, from the end of the line with its opening delimiter to its closing one. -/
theorem writes_container {enclosing : Nat} {c : Container}
    (hitems : ∀ item ∈ itemPointers c, ∀ queue rows, Drain.queueText queue = rowsText rows →
      headBreak item.value ++
          Drain.queueText (item.value.tokens cc true (enclosing + 1) ++ queue) =
        rowsText (item.value.rows cc (enclosing + 1) ++ rows))
    {queue : Drain.Queue Byte} {rows : List Row}
    (h : Drain.queueText (some (closeText true enclosing c.terminator) :: queue) =
      rowsText (⟨false, enclosing, some [c.terminator]⟩ :: rows)) :
    [newline] ++ Drain.queueText (c.tokens cc true enclosing ++ queue) =
      rowsText ((toValue c).rows cc enclosing ++ rows) := by
  rw [rows_toValue, Container.tokens]
  cases hrange : itemPointers c with
  | nil =>
    simp only [blockTokens, blockRows, endRows, List.nil_append, List.isEmpty_nil, if_true,
      List.cons_append, h]
    rfl
  | cons item range =>
    rw [hrange, List.forall_mem_cons] at hitems
    have hrest := hitems.1 _ _ (writes_more hitems.2 h)
    have hitem := writes_item cc (enclosing + 1) true item.key hrest
    simpa [blockTokens, blockRows, endRows] using hitem

theorem writes_value (v : Value) : ∀ enclosing queue rows, Drain.queueText queue = rowsText rows →
    headBreak v ++ Drain.queueText (v.tokens cc true (enclosing + 1) ++ queue) =
      rowsText (v.rows cc (enclosing + 1) ++ rows) := by
  have hclose : ∀ {terminator : Byte} {enclosing : Nat} {queue : Drain.Queue Byte}
      {rows : List Row}, Drain.queueText queue = rowsText rows →
      Drain.queueText (some (closeText true (enclosing + 1) terminator) :: queue) =
        rowsText (⟨false, enclosing + 1, some [terminator]⟩ :: rows) := fun h => by
    simp [Drain.queueText, rowsText, closeText, h]
  induction v using Value.induct with
  | null | boolean | number | string => exact fun _ _ _ h => h
  | object ms ih =>
    intro enclosing queue rows h
    rw [show Value.object ms = toValue (.object ms) from rfl, tokens_toValue]
    refine writes_container (c := .object ms) ?_ (hclose h)
    exact List.forall_mem_map.mpr fun kv hkv => ih kv hkv (enclosing + 1)
  | array vs ih =>
    intro enclosing queue rows h
    rw [show Value.array vs = toValue (.array vs) from rfl, tokens_toValue]
    refine writes_container (c := .array vs) ?_ (hclose h)
    exact List.forall_mem_map.mpr fun v hv => ih v hv (enclosing + 1)

/-- The opening delimiter, and behind it the lines of the tree. -/
theorem prettyText_rows (c : Container) :
    c.text cc true = c.starter :: rowsText ((toValue c).rows cc 0) := by
  have hclose : Drain.queueText [some (closeText true 0 c.terminator)] =
      rowsText [⟨false, 0, some [c.terminator]⟩] := by
    simp [Drain.queueText, rowsText, closeText]
  have hblock : [newline] ++ Drain.queueText (c.tokens cc true 0 ++ []) =
      rowsText ((toValue c).rows cc 0 ++ []) :=
    writes_container (fun item _ => writes_value item.value 0) hclose
  rw [List.append_nil, List.append_nil] at hblock
  rw [← hblock]
  simp [Container.text, Drain.text, Container.openText, lineBreak]

/-! ## What stands on a line -/

/-- Part of one line, behind its indentation. -/
def OnOneLine (u : Str) : Prop := ∀ ch ∈ u, ch ≠ newline ∧ ch ≠ horizontalTab

instance (u : Str) : Decidable (OnOneLine u) := List.decidableBAll _ u

theorem OnOneLine.append {u v : Str} (hu : OnOneLine u) (hv : OnOneLine v) : OnOneLine (u ++ v) :=
  List.forall_mem_append.mpr ⟨hu, hv⟩

theorem strChar_onOneLine (x : StrChar) : OnOneLine x.text := by
  cases x with
  | raw ch h =>
    intro c hc
    rw [List.mem_singleton.mp hc]
    constructor <;>
    · rintro rfl
      cases h
  | escaped escChar val h =>
    have hesc : escChar ≠ newline ∧ escChar ≠ horizontalTab := by
      constructor <;>
      · rintro rfl
        cases h
    exact List.forall_mem_cons.mpr ⟨by decide, List.forall_mem_singleton.mpr hesc⟩

theorem wrapString_onOneLine {s t : Str} (h : wrapString s = some t) : OnOneLine t := by
  obtain ⟨body, rfl, -⟩ := wrapString_quoted h
  have hbody : OnOneLine (bodyText body) := fun ch hch => by
    obtain ⟨x, -, hx⟩ := List.mem_flatMap.mp hch
    exact strChar_onOneLine x ch hx
  exact List.forall_mem_cons.mpr ⟨by decide, hbody.append (by decide)⟩

theorem keyText_onOneLine {key keyPart : Str} (h : keyText true key = some keyPart) :
    OnOneLine keyPart := by
  unfold keyText at h
  split at h
  · cases h
    exact fun ch hch => nomatch hch
  · cases hw : wrapString key with
    | none => simp [hw] at h
    | some wrapped =>
      simp only [hw] at h
      cases h
      exact ((wrapString_onOneLine hw).append (by decide)).append (by decide)

theorem itemContent_onOneLine (hcc : cc.Solid) {key : Str} {v : Value} {content : Str}
    (h : itemContent cc key v = some content) : OnOneLine content := by
  unfold itemContent at h
  cases hpart : keyText true key with
  | none => simp [hpart] at h
  | some keyPart =>
    have hline := keyText_onOneLine hpart
    simp only [hpart] at h
    cases v with
    | object ms | array vs =>
      cases h
      exact hline.append (by decide)
    | null =>
      cases h
      exact hline.append (by decide)
    | boolean b =>
      cases h
      exact hline.append (by cases b <;> decide)
    | number x =>
      cases h
      refine hline.append fun ch hch => ?_
      have hsolid := (hcc x ch hch).1
      constructor <;>
      · rintro rfl
        cases hsolid
    | string s =>
      obtain ⟨w, hw, rfl⟩ := Option.map_eq_some_iff.mp h
      exact hline.append (wrapString_onOneLine hw)

theorem endRows_onOneLine {enclosing : Nat} {isEmpty : Bool} {terminator : Byte}
    (h : OnOneLine [terminator]) :
    ∀ row ∈ endRows enclosing isEmpty terminator, ∀ content, row.content = some content →
      OnOneLine content := by
  intro row hrow content hcontent
  cases isEmpty with
  | false =>
    rw [List.mem_singleton.mp hrow] at hcontent
    cases hcontent
    exact h
  | true =>
    rcases List.mem_cons.mp hrow with rfl | hrow
    · cases hcontent
      exact fun ch hch => nomatch hch
    · rw [List.mem_singleton.mp hrow] at hcontent
      cases hcontent
      exact h

theorem blockRows_onOneLine (hcc : cc.Solid) {enclosing : Nat} {range : List ItemPointer}
    (h : ∀ item ∈ range, ∀ row ∈ item.value.rows cc enclosing, ∀ content,
      row.content = some content → OnOneLine content) :
    ∀ first, ∀ row ∈ blockRows cc enclosing first range, ∀ content,
      row.content = some content → OnOneLine content := by
  induction range with
  | nil => exact fun _ row hrow => nomatch hrow
  | cons item range ih =>
    intro first row hrow content hcontent
    rw [List.forall_mem_cons] at h
    rcases List.mem_cons.mp hrow with rfl | hrow
    · exact itemContent_onOneLine hcc hcontent
    · rcases List.mem_append.mp hrow with hrow | hrow
      · exact h.1 row hrow content hcontent
      · exact ih h.2 false row hrow content hcontent

/-- Nothing on a line behind its indentation breaks or indents it. -/
theorem rows_onOneLine (hcc : cc.Solid) (v : Value) :
    ∀ enclosing, ∀ row ∈ v.rows cc enclosing, ∀ content, row.content = some content →
      OnOneLine content := by
  induction v using Value.induct with
  | null | boolean | number | string => exact fun _ row hrow => nomatch hrow
  | object ms ih =>
    intro enclosing row hrow
    rw [Value.rows, memberRows_eq] at hrow
    rcases List.mem_append.mp hrow with hrow | hrow
    · refine blockRows_onOneLine hcc (List.forall_mem_map.mpr fun kv hkv => ?_) true row hrow
      exact ih kv hkv (enclosing + 1)
    · exact endRows_onOneLine (by decide) row hrow
  | array vs ih =>
    intro enclosing row hrow
    rw [Value.rows, elementRows_eq] at hrow
    rcases List.mem_append.mp hrow with hrow | hrow
    · refine blockRows_onOneLine hcc (List.forall_mem_map.mpr fun v hv => ?_) true row hrow
      exact ih v hv (enclosing + 1)
    · exact endRows_onOneLine (by decide) row hrow

/-! ## Both modes -/

/-- **Printing prettily only adds whitespace.** Given enough room the two modes return the same
code and write the same up to spaces, tabs and newlines outside of strings; prettily the text is the
opening delimiter and the lines of the tree. -/
theorem serialize_pretty (cc : CharConv) (hcc : cc.Solid) (c : Container) :
    ∃ enough w w' ec, ec ≠ .bufferIsFull ∧
      (∀ big, enough ≤ big →
        (∃ s, serialize cc (Serializer.init c true) big = .returned w ec s) ∧
        ∃ s, serialize cc (Serializer.init c false) big = .returned w' ec s) ∧
      bare w = bare w' ∧
      w = c.starter :: rowsText ((toValue c).rows cc 0) ∧
      ∀ row ∈ (toValue c).rows cc 0, ∀ content, row.content = some content →
        ∀ ch ∈ content, ch ≠ newline ∧ ch ≠ horizontalTab := by
  refine ⟨(c.text cc true).length + (c.text cc false).length + 1, c.text cc true, c.text cc false,
    if none ∈ c.tokens cc true 0 then .illegalCharInString else .completed, ?_, fun big hbig => ?_,
    bare_text hcc c, prettyText_rows c, rows_onOneLine hcc (toValue c) 0⟩
  · split <;> decide
  · exact ⟨serialize_enough cc c true (by omega), serialize_enough cc c false (by omega)⟩

/-- An empty array as the member of an object. -/
theorem serialize_pretty_nested :
    ∃ enough w w' ec, ec ≠ .bufferIsFull ∧
      (∀ big, enough ≤ big →
        (∃ s, serialize .binary (Serializer.init (.object [([0x6b], .array [])]) true) big =
          .returned w ec s) ∧
        ∃ s, serialize .binary (Serializer.init (.object [([0x6b], .array [])]) false) big =
          .returned w' ec s) ∧
      bare w = bare w' ∧
      w = Container.starter (.object [([0x6b], .array [])]) ::
        rowsText ((toValue (.object [([0x6b], .array [])])).rows .binary 0) ∧
      ∀ row ∈ (toValue (.object [([0x6b], .array [])])).rows .binary 0, ∀ content,
        row.content = some content → ∀ ch ∈ content, ch ≠ newline ∧ ch ≠ horizontalTab :=
  serialize_pretty .binary binary_solid (.object [([0x6b], .array [])])

end Jopp
