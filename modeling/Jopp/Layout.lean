import Jopp.Types

/-!
# Jopp.Layout

The documents the parser is meant for, as derivation trees of their grammar. A tree determines its
text byte by byte, whitespace included, and the value as it stands there: the members of an object
in the order written, and none left out if a key is repeated.

* `Blank`: whitespace. `StrChar`: a character of a string, raw or behind a backslash.
* `Label`: what precedes a value inside its container, that is whitespace, and in an object the key
  and the colon.
* `Cst`, `Items`: values, and what stands between the delimiters of a container.
* `Document`: whitespace and a container.

The words that stand for a literal, with their values, are a parameter.
-/

namespace Jopp

abbrev Blank := {w : Str // ∀ ch ∈ w, isWhitespace ch = true}

def Blank.empty : Blank := ⟨[], by simp⟩

inductive StrChar where
  | raw (ch : Byte) (h : charShouldBeEscaped ch = false)
  | escaped (escChar val : Byte) (h : unescape escChar = some val)

def StrChar.text : StrChar → Str
  | .raw ch _ => [ch]
  | .escaped escChar _ _ => [beginEscSeq, escChar]

def StrChar.val : StrChar → Byte
  | .raw ch _ => ch
  | .escaped _ val _ => val

def bodyText (body : List StrChar) : Str := body.flatMap StrChar.text

def bodyVal (body : List StrChar) : Str := body.map StrChar.val

def quotedText (body : List StrChar) : Str :=
  Delimiters.stringBeginEnd :: (bodyText body ++ [Delimiters.stringBeginEnd])

inductive Label : Kind → Type where
  | element (before : Blank) : Label .array
  | member (before : Blank) (key : List StrChar) (beforeColon afterColon : Blank) : Label .object

def Label.text : {k : Kind} → Label k → Str
  | _, .element before => before.val
  | _, .member before key beforeColon afterColon =>
    before.val ++ quotedText key ++ beforeColon.val ++ Delimiters.nameSeparator :: afterColon.val

/-- The elements of an array have the empty key. -/
def Label.key : {k : Kind} → Label k → Str
  | _, .element _ => []
  | _, .member _ key _ _ => bodyVal key

/-! ## Values -/

mutual

inductive Cst (lit : Str → Value → Prop) : Type where
  | literal (w : Str) (v : Value) (h : lit w v) : Cst lit
  | string (body : List StrChar) : Cst lit
  | container (k : Kind) (items : Items lit k) : Cst lit

/-- What stands between the delimiters. A comma may follow the last item, but not an opening
delimiter. -/
inductive Items (lit : Str → Value → Prop) : Kind → Type where
  | close {k : Kind} (gap : Blank) : Items lit k
  | last {k : Kind} (label : Label k) (value : Cst lit) (after : Blank) : Items lit k
  | more {k : Kind} (label : Label k) (value : Cst lit) (after : Blank) (rest : Items lit k) :
      Items lit k

end

variable {lit : Str → Value → Prop}

mutual

def Cst.text : Cst lit → Str
  | .literal w _ _ => w
  | .string body => quotedText body
  | .container k items => k.opener :: (items.text ++ [k.closer])
termination_by structural c => c

def Items.text : {k : Kind} → Items lit k → Str
  | _, .close gap => gap.val
  | _, .last label value after => label.text ++ value.text ++ after.val
  | _, .more label value after rest =>
    label.text ++ value.text ++ after.val ++ Delimiters.valueSeparator :: rest.text
termination_by structural _ items => items

end

mutual

/-- The value as written. -/
def Cst.raw : Cst lit → Value
  | .literal _ v _ => v
  | .string body => .string (bodyVal body)
  | .container k items => k.wrap items.entries
termination_by structural c => c

def Items.entries : {k : Kind} → Items lit k → List (Str × Value)
  | _, .close _ => []
  | _, .last label value _ => [(label.key, value.raw)]
  | _, .more label value _ rest => (label.key, value.raw) :: rest.entries
termination_by structural _ items => items

end

def Cst.isLiteral : Cst lit → Bool
  | .literal .. => true
  | _ => false

/-- How many bytes behind a value it takes to see its end. -/
def Cst.lag (v : Cst lit) : Nat := if v.isLiteral then 1 else 0

structure Document (lit : Str → Value → Prop) where
  before : Blank
  kind : Kind
  items : Items lit kind

def Document.text (d : Document lit) : Str :=
  d.before.val ++ d.kind.opener :: (d.items.text ++ [d.kind.closer])

def Document.raw (d : Document lit) : Value := d.kind.wrap d.items.entries

/-! ## Repeated keys -/

def Value.isArray : Value → Bool
  | .array _ => true
  | _ => false

def Value.RepeatsKey : Value → Prop
  | .object ms => ¬ (ms.map Prod.fst).Nodup
  | _ => False

/-- An object as written in which a member that is not an array repeats an earlier key. -/
def Value.RepeatsNonArray : Value → Prop
  | .object ms => ∃ before k v after, ms = before ++ (k, v) :: after ∧
      k ∈ before.map Prod.fst ∧ v.isArray = false
  | _ => False

/-! ## Beginnings of documents -/

structure Done (lit : Str → Value → Prop) (k : Kind) where
  label : Label k
  value : Cst lit
  after : Blank

def Done.text {k : Kind} (item : Done lit k) : Str :=
  item.label.text ++ item.value.text ++ item.after.val ++ [Delimiters.valueSeparator]

def Done.entry {k : Kind} (item : Done lit k) : Str × Value := (item.label.key, item.value.raw)

/-- An open container, up to the place of its next value. -/
structure Frame (lit : Str → Value → Prop) where
  kind : Kind
  done : List (Done lit kind)
  label : Label kind

def Frame.text (f : Frame lit) : Str :=
  f.kind.opener :: (f.done.flatMap Done.text ++ f.label.text)

def Frame.entries (f : Frame lit) : List (Str × Value) := f.done.map Done.entry

/-- The place of a member's value in a document, the outermost container first. -/
structure Position (lit : Str → Value → Prop) where
  before : Blank
  outer : List (Frame lit)
  done : List (Done lit .object)
  label : Label .object

def Position.frames (pos : Position lit) : List (Frame lit) :=
  pos.outer ++ [⟨.object, pos.done, pos.label⟩]

def Position.text (pos : Position lit) : Str :=
  pos.before.val ++ pos.frames.flatMap Frame.text

/-- What comes before the position has no object with a repeated key. -/
def Position.Fresh (pos : Position lit) : Prop :=
  ∀ f ∈ pos.frames, (f.kind.wrap f.entries).All fun n => ¬ n.RepeatsKey

/-- How deep containers are nested in the given frames, around a value of depth `d`. -/
def framesDepth (d : Nat) : List (Frame lit) → Nat
  | [] => d
  | f :: fs => max (memberDepth f.entries) (framesDepth d fs) + 1

theorem framesDepth_append (d : Nat) (fs gs : List (Frame lit)) :
    framesDepth d (fs ++ gs) = framesDepth (framesDepth d gs) fs := by
  induction fs with
  | nil => rfl
  | cons f fs ih => simp only [List.cons_append, framesDepth, ih]

/-! ## The tree a text lays out -/

mutual

/-- The tree of a value as written: its objects may list their members in another order. -/
def Value.LaysOut : Value → Value → Prop
  | .object ms, t => ∃ ms' ms'', MembersLayOut ms ms' ∧ ms'.Perm ms'' ∧ t = .object ms''
  | .array vs, t => ∃ vs', ElementsLayOut vs vs' ∧ t = .array vs'
  | v, t => v = t
termination_by structural v => v

def MembersLayOut : List (Str × Value) → List (Str × Value) → Prop
  | [], ms' => ms' = []
  | (k, v) :: ms, ms' => ∃ v' rest, ms' = (k, v') :: rest ∧ v.LaysOut v' ∧ MembersLayOut ms rest
termination_by structural ms => ms

def ElementsLayOut : List Value → List Value → Prop
  | [], vs' => vs' = []
  | v :: vs, vs' => ∃ v' rest, vs' = v' :: rest ∧ v.LaysOut v' ∧ ElementsLayOut vs rest
termination_by structural vs => vs

end

theorem membersLayOut_depth {ms : List (Str × Value)}
    (h : ∀ kv ∈ ms, ∀ t, kv.2.LaysOut t → kv.2.depth = t.depth) :
    ∀ ms', MembersLayOut ms ms' → memberDepth ms = memberDepth ms' := by
  induction ms with
  | nil =>
    rintro _ rfl
    rfl
  | cons kv ms ih =>
    obtain ⟨k, v⟩ := kv
    rintro _ ⟨v', rest, rfl, hv, hrest⟩
    simp only [memberDepth]
    rw [h (k, v) (List.mem_cons_self ..) v' hv,
      ih (fun x hx => h x (List.mem_cons_of_mem _ hx)) rest hrest]

theorem elementsLayOut_depth {vs : List Value}
    (h : ∀ v ∈ vs, ∀ t, v.LaysOut t → v.depth = t.depth) :
    ∀ vs', ElementsLayOut vs vs' → itemDepth vs = itemDepth vs' := by
  induction vs with
  | nil =>
    rintro _ rfl
    rfl
  | cons v vs ih =>
    rintro _ ⟨v', rest, rfl, hv, hrest⟩
    simp only [itemDepth]
    rw [h v (List.mem_cons_self ..) v' hv,
      ih (fun x hx => h x (List.mem_cons_of_mem _ hx)) rest hrest]

theorem laysOut_depth (v : Value) : ∀ t, v.LaysOut t → v.depth = t.depth := by
  induction v using Value.induct with
  | null | boolean | number | string =>
    intro t h
    obtain rfl : _ = t := h
    rfl
  | object ms ih =>
    rintro _ ⟨ms', ms'', hms, hperm, rfl⟩
    have hdepth : memberDepth ms' = memberDepth ms'' :=
      eq_of_forall_ge_iff fun d => by
        rw [memberDepth_le, memberDepth_le]
        exact ⟨fun h kv hkv => h kv (hperm.mem_iff.mpr hkv),
          fun h kv hkv => h kv (hperm.mem_iff.mp hkv)⟩
    simp only [Value.depth]
    rw [membersLayOut_depth ih ms' hms, hdepth]
  | array vs ih =>
    rintro _ ⟨vs', hvs, rfl⟩
    simp only [Value.depth]
    rw [elementsLayOut_depth ih vs' hvs]

/-! ## Escaped strings -/

theorem escapeChar_text {ch : Byte} {out : Str} (h : escapeChar ch = some out) :
    ∃ x : StrChar, x.text = out ∧ x.val = ch := by
  unfold escapeChar at h
  split at h
  · rename_i hch
    cases hesc : getEscapeChar ch with
    | none => simp [hesc] at h
    | some escChar =>
      simp only [hesc] at h
      cases h
      have hback : unescape escChar = some ch := by
        unfold getEscapeChar at hesc
        split_ifs at hesc with h₁ h₂ h₃ h₄ <;> cases hesc
        · rw [h₁]; rfl
        · rw [h₂]; rfl
        · rw [h₃]; rfl
        · rw [h₄]; rfl
      exact ⟨.escaped escChar ch hback, rfl, rfl⟩
  · rename_i hch
    cases h
    exact ⟨.raw ch (by simpa using hch), rfl, rfl⟩

theorem escape_body : ∀ {s w : Str}, escape s = some w →
    ∃ body, bodyText body = w ∧ bodyVal body = s
  | [], w, h => by
    cases h
    exact ⟨[], rfl, rfl⟩
  | ch :: s, w, h => by
    unfold escape at h
    cases hch : escapeChar ch with
    | none => simp [hch] at h
    | some out =>
      cases hs : escape s with
      | none => simp [hch, hs] at h
      | some ret =>
        simp only [hch, hs] at h
        cases h
        obtain ⟨x, rfl, rfl⟩ := escapeChar_text hch
        obtain ⟨body, rfl, rfl⟩ := escape_body hs
        exact ⟨x :: body, rfl, rfl⟩

theorem wrapString_quoted {s w : Str} (h : wrapString s = some w) :
    ∃ body, quotedText body = w ∧ bodyVal body = s := by
  unfold wrapString at h
  cases hs : escape s with
  | none => simp [hs] at h
  | some escapedString =>
    simp only [hs] at h
    cases h
    obtain ⟨body, rfl, rfl⟩ := escape_body hs
    exact ⟨body, by simp [quotedText], rfl⟩

/-! ## Literals -/

/-- The words `make_value` accepts. -/
def Literal (cc : CharConv) (w : Str) (v : Value) : Prop := makeValue cc w = some v

def PlainLiterals (cc : CharConv) (lit : Str → Value → Prop) : Prop :=
  ∀ w v, lit w v → makeValue cc w = some v ∧ w ≠ [] ∧ ∀ ch ∈ w, isPlain ch = true

theorem literal_plain {cc : CharConv} (h : cc.Plain) : PlainLiterals cc (Literal cc) := by
  intro w v hw
  refine ⟨hw, ?_⟩
  rcases makeValue_cases hw with ⟨rfl, -⟩ | ⟨rfl, -⟩ | ⟨rfl, -⟩ | ⟨x, hx, -⟩
  · exact ⟨by decide, List.all_eq_true.mp rfl⟩
  · exact ⟨by decide, List.all_eq_true.mp rfl⟩
  · exact ⟨by decide, List.all_eq_true.mp rfl⟩
  · exact h w x hx

end Jopp
