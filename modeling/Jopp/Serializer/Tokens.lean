import Jopp.Serializer
import Jopp.Lib.Drain

/-!
# Jopp.Serializer.Tokens

What a serializer has to write, by recursion on the tree. A token is what the loop puts into
`m_string_to_write` in one go: for an item its separator, indentation, key and the beginning of
its value, for a container its end. `none` stands for an item whose key or string value cannot be
escaped.

* `Value.tokens`, `Container.tokens`: the tokens after the one that opens the value, in document
  order. `pendingTokens`: those a stack of contexts still has to write.
* `fill_cases`: `fill` produces the first of the pending tokens, or fails if there is none.
-/

namespace Jopp

variable (cc : CharConv) (pretty : Bool)

def lineBreak : Str := if pretty then [newline] else []

def indent (depth : Nat) : Str := if pretty then List.replicate depth horizontalTab else []

/-- Separator and indentation of an item of a block that has `depth` blocks open. -/
def beforeItem (depth : Nat) (first : Bool) : Str :=
  (if first then [] else [Delimiters.valueSeparator] ++ lineBreak pretty) ++ indent pretty depth

def keyText (key : Str) : Option Str :=
  if key = [] then some []
  else
    match wrapString key with
    | none => none
    | some wrapped =>
      some (wrapped ++ [Delimiters.nameSeparator] ++ if pretty then [space] else [])

/-- All of a scalar, the opening delimiter of a container. -/
def headText : Value → Option Str
  | .null => some nullToString
  | .boolean b => some (booleanToString b)
  | .number x => some (numberToString cc x)
  | .string s => wrapString s
  | .object _ => some ([Delimiters.beginObject] ++ lineBreak pretty)
  | .array _ => some ([Delimiters.beginArray] ++ lineBreak pretty)

def closeText (depth : Nat) (terminator : Byte) : Str :=
  (if pretty then [newline] ++ List.replicate depth horizontalTab else []) ++ [terminator]
    ++ if depth = 0 then [newline] else []

def itemToken (depth : Nat) (first : Bool) (key : Str) (v : Value) : Option Str :=
  match keyText pretty key with
  | none => none
  | some keyPart =>
    match headText cc pretty v with
    | none => none
    | some head => some (beforeItem pretty depth first ++ keyPart ++ head)

mutual

/-- What follows the opening delimiter of a value that has `depth` blocks open around it. -/
def Value.tokens (depth : Nat) : Value → Drain.Queue Byte
  | .object ms =>
    memberTokens (depth + 1) true ms ++ [some (closeText pretty depth Delimiters.endObject)]
  | .array vs =>
    elementTokens (depth + 1) true vs ++ [some (closeText pretty depth Delimiters.endArray)]
  | _ => []
termination_by structural v => v

def memberTokens (depth : Nat) (first : Bool) : List (Str × Value) → Drain.Queue Byte
  | [] => []
  | (k, v) :: ms =>
    itemToken cc pretty depth first k v :: (v.tokens depth ++ memberTokens depth false ms)
termination_by structural ms => ms

def elementTokens (depth : Nat) (first : Bool) : List Value → Drain.Queue Byte
  | [] => []
  | v :: vs =>
    itemToken cc pretty depth first [] v :: (v.tokens depth ++ elementTokens depth false vs)
termination_by structural vs => vs

end

def Container.starter : Container → Byte
  | .object _ => Delimiters.beginObject
  | .array _ => Delimiters.beginArray

def Container.terminator : Container → Byte
  | .object _ => Delimiters.endObject
  | .array _ => Delimiters.endArray

def blockTokens (depth : Nat) (first : Bool) : List ItemPointer → Drain.Queue Byte
  | [] => []
  | item :: range =>
    itemToken cc pretty depth first item.key item.value ::
      (item.value.tokens cc pretty depth ++ blockTokens depth false range)

def Container.tokens (depth : Nat) (c : Container) : Drain.Queue Byte :=
  blockTokens cc pretty (depth + 1) true (itemPointers c) ++
    [some (closeText pretty depth c.terminator)]

def Container.openText (c : Container) : Str := [c.starter] ++ lineBreak pretty

/-- What a stack of contexts still has to write, its top first. -/
def pendingTokens : List SerializerContext → Drain.Queue Byte
  | [] => []
  | context :: rest =>
    blockTokens cc pretty (rest.length + 1) context.firstItem context.range ++
      some (closeText pretty rest.length context.blockTerminator) :: pendingTokens rest

/-- All that can be written of a tree: the whole document, or what precedes the first item that
cannot be escaped. -/
def Container.text (c : Container) : Str :=
  Drain.text (c.openText pretty) (c.tokens cc pretty 0)

section

variable {cc pretty}

theorem memberTokens_eq (depth : Nat) (first : Bool) (ms : List (Str × Value)) :
    memberTokens cc pretty depth first ms =
      blockTokens cc pretty depth first (itemPointers (.object ms)) := by
  induction ms generalizing first with
  | nil => rfl
  | cons kv ms ih => simp only [memberTokens, ih]; rfl

theorem elementTokens_eq (depth : Nat) (first : Bool) (vs : List Value) :
    elementTokens cc pretty depth first vs =
      blockTokens cc pretty depth first (itemPointers (.array vs)) := by
  induction vs generalizing first with
  | nil => rfl
  | cons v vs ih => simp only [elementTokens, ih]; rfl

theorem tokens_toValue (depth : Nat) (c : Container) :
    (toValue c).tokens cc pretty depth = c.tokens cc pretty depth := by
  cases c with
  | object ms => simp only [toValue, Value.tokens, memberTokens_eq]; rfl
  | array vs => simp only [toValue, Value.tokens, elementTokens_eq]; rfl

/-! ## One token -/

theorem pendingTokens_make (c : Container) (rest : List SerializerContext) :
    pendingTokens cc pretty (makeSerializerContext c :: rest) =
      c.tokens cc pretty rest.length ++ pendingTokens cc pretty rest := by
  cases c <;> simp [pendingTokens, makeSerializerContext, Container.tokens, Container.terminator]

theorem appendKey_eq (s : Serializer) (str key : Str) :
    appendKey s str key = (keyText s.prettyPrint key).map (str ++ ·) := by
  unfold appendKey keyText
  by_cases hk : key = []
  · simp [hk]
  · cases wrapString key <;> simp [hk]

theorem appendValue_eq (cc : CharConv) (s : Serializer) (str : Str) (v : Value) :
    match headText cc s.prettyPrint v with
    | none => appendValue cc s str v = none
    | some head => ∃ contexts,
      appendValue cc s str v = some { s with stringToWrite := str ++ head, contexts := contexts } ∧
      pendingTokens cc s.prettyPrint contexts =
        v.tokens cc s.prettyPrint s.contexts.length ++
          pendingTokens cc s.prettyPrint s.contexts := by
  cases v with
  | null | boolean | number => exact ⟨s.contexts, rfl, rfl⟩
  | string val =>
    show match wrapString val with
      | none => _
      | some head => _
    cases h : wrapString val with
    | none => simp [appendValue, h]
    | some head => exact ⟨s.contexts, by simp [appendValue, h], rfl⟩
  | object ms =>
    refine ⟨makeSerializerContext (.object ms) :: s.contexts, ?_, ?_⟩
    · simp [appendValue, pushContext, makeSerializerContext, lineBreak]
    · rw [pendingTokens_make, ← tokens_toValue]; rfl
  | array vs =>
    refine ⟨makeSerializerContext (.array vs) :: s.contexts, ?_, ?_⟩
    · simp [appendValue, pushContext, makeSerializerContext, lineBreak]
    · rw [pendingTokens_make, ← tokens_toValue]; rfl

/-- `fill` produces the first of the pending tokens, and leaves the others pending. -/
theorem fill_cases (cc : CharConv) (s : Serializer) {current : SerializerContext}
    {rest : List SerializerContext} (hc : s.contexts = current :: rest) :
    (∃ tok s', fill cc s current rest = .ok s' ∧ s'.rangeToWrite = tok ∧
      s'.prettyPrint = s.prettyPrint ∧
      pendingTokens cc s.prettyPrint s.contexts =
        some tok :: pendingTokens cc s.prettyPrint s'.contexts) ∨
    (∃ s' queue, fill cc s current rest = .error s' ∧
      pendingTokens cc s.prettyPrint s.contexts = none :: queue) := by
  rw [hc]
  cases hr : current.range with
  | nil =>
    refine .inl ⟨closeBlock s current,
      { s with
        stringToWrite := closeBlock s current
        rangeToWrite := closeBlock s current
        contexts := rest }, ?_, rfl, rfl, ?_⟩
    · simp only [fill, hr]
    · simp only [pendingTokens, hr, blockTokens, List.nil_append]
      have hclose : closeBlock s current =
          closeText s.prettyPrint rest.length current.blockTerminator := by
        simp [closeBlock, closeText, hc]
      rw [hclose]
  | cons item range =>
    have hbefore : beginItem s current =
        beforeItem s.prettyPrint (rest.length + 1) current.firstItem := by
      unfold beginItem beforeItem lineBreak indent
      rw [hc]
      cases current.firstItem <;> rfl
    have hpending : pendingTokens cc s.prettyPrint (current :: rest) =
        itemToken cc s.prettyPrint (rest.length + 1) current.firstItem item.key item.value ::
          (item.value.tokens cc s.prettyPrint (rest.length + 1) ++
            pendingTokens cc s.prettyPrint
              ({ current with range := range, firstItem := false } :: rest)) := by
      simp [pendingTokens, hr, blockTokens]
    rw [hpending]
    simp only [fill, hr, appendKey_eq, hbefore, itemToken]
    cases hkey : keyText s.prettyPrint item.key with
    | none => exact .inr ⟨_, _, rfl, rfl⟩
    | some keyPart =>
      simp only [Option.map_some]
      have hval := appendValue_eq cc
        { s with
          stringToWrite := beforeItem s.prettyPrint (rest.length + 1) current.firstItem
          contexts := { current with range := range, firstItem := false } :: rest }
        (beforeItem s.prettyPrint (rest.length + 1) current.firstItem ++ keyPart) item.value
      simp only at hval
      cases hhead : headText cc s.prettyPrint item.value with
      | none =>
        simp only [hhead] at hval
        simp only [hval]
        exact .inr ⟨_, _, rfl, rfl⟩
      | some head =>
        simp only [hhead] at hval
        obtain ⟨contexts, hok, htokens⟩ := hval
        simp only [hok]
        exact .inl ⟨_, _, rfl, rfl, rfl, by rw [htokens]; rfl⟩

end

end Jopp
