import Jopp.Parser

/-!
# Jopp.Parser.Pass

What one pass of the loop can do, said once. `Branch cc p ch flow` has one constructor for each
way through the `switch`, guards included; `pass_branch` says that `pass` takes one of them.
Invariants are then proved by cases on `Branch`.

`storeValue` is described here too: it refuses a value exactly when its parent is an object that
has the key already (`refuses`), and the parent is then unchanged.
-/

namespace Jopp

/-! ## Storing -/

/-- The parent is an object in which the pending key is taken. -/
def refuses (parent : ParserContext) (val : Value) : Bool :=
  match parent.value with
  | .object item => !(SortedMap.insert parent.key val item).2
  | .array _ => false

theorem storeValue_key (parent : ParserContext) (val : Value) :
    (storeValue parent val).1.key = [] := by
  simp only [storeValue]
  split
  · split <;> rfl
  · rfl

theorem storeValue_moved (parent : ParserContext) (val : Value) :
    ({ key := [], value := (storeValue parent val).1.value } : ParserContext) =
      (storeValue parent val).1 := by
  rw [← storeValue_key parent val]

theorem storeValue_err (parent : ParserContext) (val : Value) :
    (storeValue parent val).2.err =
      if refuses parent val then .keyAlreadyExists else .moreDataNeeded := by
  obtain ⟨key, value⟩ := parent
  cases value with
  | object item => cases h : (SortedMap.insert key val item).2 <;> simp [storeValue, refuses, h]
  | array item => rfl

theorem storeValue_object {parent : ParserContext} {item : List (Str × Value)} (val : Value)
    (h : parent.value = .object item) :
    (storeValue parent val).1.value = .object (SortedMap.insert parent.key val item).1 ∧
      (storeValue parent val).2.nextState = .afterValueObject := by
  simp only [storeValue, h]
  split <;> exact ⟨rfl, rfl⟩

theorem storeValue_array {parent : ParserContext} {item : List Value} (val : Value)
    (h : parent.value = .array item) :
    (storeValue parent val).1.value = .array (item ++ [val]) ∧
      (storeValue parent val).2.nextState = .afterValueArray := by
  simp [storeValue, h]

/-- The state after a store tells the kind of the container stored into, which stays an object
or an array. -/
theorem storeValue_kind (parent : ParserContext) (val : Value) :
    (∃ ms ms', parent.value = .object ms ∧ (storeValue parent val).1.value = .object ms' ∧
      (storeValue parent val).2.nextState = .afterValueObject) ∨
    (∃ vs vs', parent.value = .array vs ∧ (storeValue parent val).1.value = .array vs' ∧
      (storeValue parent val).2.nextState = .afterValueArray) := by
  cases h : parent.value with
  | object ms => exact .inl ⟨ms, _, rfl, storeValue_object val h⟩
  | array vs => exact .inr ⟨vs, _, rfl, storeValue_array val h⟩

theorem storeValue_refused {parent : ParserContext} {val : Value}
    (h : refuses parent val = true) : (storeValue parent val).1.value = parent.value := by
  cases hv : parent.value with
  | object item =>
    rw [(storeValue_object val hv).1, SortedMap.insert_refused]
    simpa [refuses, hv] using h
  | array item => simp [refuses, hv] at h

/-- The parser once `val` is stored in the context `top`. -/
def Parser.put (p : Parser) (top : ParserContext) (rest : List ParserContext) (val : Value) :
    Parser :=
  { p with
    contexts := (storeValue top val).1 :: rest
    currentState := (storeValue top val).2.nextState }

@[simp] theorem Parser.put_contexts (p : Parser) (top : ParserContext)
    (rest : List ParserContext) (val : Value) :
    (p.put top rest val).contexts = (storeValue top val).1 :: rest := rfl

@[simp] theorem Parser.put_currentState (p : Parser) (top : ParserContext)
    (rest : List ParserContext) (val : Value) :
    (p.put top rest val).currentState = (storeValue top val).2.nextState := rfl

@[simp] theorem Parser.put_maxLevels (p : Parser) (top : ParserContext)
    (rest : List ParserContext) (val : Value) : (p.put top rest val).maxLevels = p.maxLevels := rfl

@[simp] theorem Parser.put_buffer (p : Parser) (top : ParserContext)
    (rest : List ParserContext) (val : Value) : (p.put top rest val).buffer = p.buffer := rfl

@[simp] theorem Parser.put_root (p : Parser) (top : ParserContext)
    (rest : List ParserContext) (val : Value) : (p.put top rest val).root = p.root := rfl

def ParserState.skipsBlanks : ParserState → Bool
  | .value | .beforeKey | .beforeValue | .afterValueObject | .afterValueArray => true
  | _ => false

/-- The quoted states, each with its state behind a backslash. -/
inductive Quoted : ParserState → ParserState → Prop where
  | stringValue : Quoted .stringValue .stringValueEscSeq
  | key : Quoted .key .keyEscSeq

section

variable {s escState : ParserState}

theorem Quoted.ne_value (h : Quoted s escState) : s ≠ .value ∧ escState ≠ .value := by
  cases h <;> decide

theorem Quoted.ne_afterValueArray (h : Quoted s escState) :
    s ≠ .afterValueArray ∧ escState ≠ .afterValueArray := by
  cases h <;> decide

theorem Quoted.skipsBlanks (h : Quoted s escState) :
    s.skipsBlanks = false ∧ escState.skipsBlanks = false := by
  cases h <;> exact ⟨rfl, rfl⟩

end

/-- The states after a value, each with its closing delimiter. -/
inductive Closes : ParserState → Byte → Prop where
  | object : Closes .afterValueObject Delimiters.endObject
  | array : Closes .afterValueArray Delimiters.endArray

theorem Closes.skipsBlanks {s : ParserState} {ch : Byte} (h : Closes s ch) :
    s.skipsBlanks = true := by
  cases h <;> rfl

theorem Closes.ne_value {s : ParserState} {ch : Byte} (h : Closes s ch) : s ≠ .value := by
  cases h <;> decide

def endsLiteral (ch : Byte) : Prop :=
  ch = Delimiters.valueSeparator ∨ ch = Delimiters.endArray ∨ ch = Delimiters.endObject ∨
    isWhitespace ch = true

instance (ch : Byte) : Decidable (endsLiteral ch) := inferInstanceAs (Decidable (_ ∨ _))

inductive Branch (cc : CharConv) (p : Parser) (ch : Byte) : Flow → Prop where
  | blank (hs : p.currentState.skipsBlanks = true) (hch : isWhitespace ch = true) :
      Branch cc p ch (.brk p)
  | openArray (hs : p.currentState = .value) (hch : ch = Delimiters.beginArray)
      (hd : p.tooDeep = false) :
      Branch cc p ch
        (.brk { p with contexts := ⟨[], .array []⟩ :: p.contexts, currentState := .value })
  | openObject (hs : p.currentState = .value) (hch : ch = Delimiters.beginObject)
      (hd : p.tooDeep = false) :
      Branch cc p ch
        (.brk { p with contexts := ⟨[], .object []⟩ :: p.contexts, currentState := .beforeKey })
  | tooDeep (hs : p.currentState = .value)
      (hch : ch = Delimiters.beginArray ∨ ch = Delimiters.beginObject) (hd : p.tooDeep = true) :
      Branch cc p ch (.ret p .nestingLevelTooDeep)
  | endInValue (hs : p.currentState = .value) (hch : ch = Delimiters.endArray) :
      Branch cc p ch (.brkBack { p with currentState := .afterValueArray })
  | openString (hs : p.currentState = .value) (hch : ch = Delimiters.stringBeginEnd)
      (hc : p.contexts ≠ []) :
      Branch cc p ch (.brk { p with currentState := .stringValue })
  | openLiteral (hs : p.currentState = .value) (hch : isWhitespace ch = false)
      (ha : ch ≠ Delimiters.beginArray) (ho : ch ≠ Delimiters.beginObject)
      (he : ch ≠ Delimiters.endArray) (hq : ch ≠ Delimiters.stringBeginEnd)
      (hc : p.contexts ≠ []) :
      Branch cc p ch (.brk { p with buffer := p.buffer ++ [ch], currentState := .literal })
  | leafAtTop (hs : p.currentState = .value) (hch : isWhitespace ch = false)
      (ha : ch ≠ Delimiters.beginArray) (ho : ch ≠ Delimiters.beginObject)
      (he : ch ≠ Delimiters.endArray) (hc : p.contexts = []) :
      Branch cc p ch (.ret p .noTopLevelNode)
  | literalChar (hs : p.currentState = .literal) (hch : ¬ endsLiteral ch) :
      Branch cc p ch (.brk { p with buffer := p.buffer ++ [ch] })
  | literalBlank (hs : p.currentState = .literal) (hch : isWhitespace ch = true)
      {top : ParserContext} {rest : List ParserContext} (hc : p.contexts = top :: rest)
      {val : Value} (hv : makeValue cc p.buffer = some val) (hr : refuses top val = false) :
      Branch cc p ch (.brk { p.put top rest val with buffer := [] })
  | literalBack (hs : p.currentState = .literal) (hch : endsLiteral ch)
      (hw : isWhitespace ch = false)
      {top : ParserContext} {rest : List ParserContext} (hc : p.contexts = top :: rest)
      {val : Value} (hv : makeValue cc p.buffer = some val) (hr : refuses top val = false) :
      Branch cc p ch (.brkBack { p.put top rest val with buffer := [] })
  | literalInvalid (hs : p.currentState = .literal) (hch : endsLiteral ch)
      {top : ParserContext} {rest : List ParserContext} (hc : p.contexts = top :: rest)
      (hv : makeValue cc p.buffer = none) :
      Branch cc p ch (.ret p .invalidValue)
  | literalRefused (hs : p.currentState = .literal) (hch : endsLiteral ch)
      {top : ParserContext} {rest : List ParserContext} (hc : p.contexts = top :: rest)
      {val : Value} (hv : makeValue cc p.buffer = some val) (hr : refuses top val = true) :
      Branch cc p ch
        (.ret { p with contexts := (storeValue top val).1 :: rest } .keyAlreadyExists)
  | literalEmpty (hs : p.currentState = .literal) (hch : endsLiteral ch) (hc : p.contexts = []) :
      Branch cc p ch .undefined
  | rawChar {escState : ParserState} (hs : Quoted p.currentState escState)
      (hch : charShouldBeEscaped ch = false) :
      Branch cc p ch (.brk { p with buffer := p.buffer ++ [ch] })
  | rawIllegal {escState : ParserState} (hs : Quoted p.currentState escState)
      (hch : charShouldBeEscaped ch = true) (hq : ch ≠ Delimiters.stringBeginEnd)
      (hb : ch ≠ beginEscSeq) :
      Branch cc p ch (.ret p .characterMustBeEscaped)
  | beginEsc {escState : ParserState} (hs : Quoted p.currentState escState)
      (hch : ch = beginEscSeq) :
      Branch cc p ch (.brk { p with currentState := escState })
  | escChar {quotedState : ParserState} (hs : Quoted quotedState p.currentState) {val : Byte}
      (hch : unescape ch = some val) :
      Branch cc p ch (.brk { p with buffer := p.buffer ++ [val], currentState := quotedState })
  | escIllegal {quotedState : ParserState} (hs : Quoted quotedState p.currentState)
      (hch : unescape ch = none) :
      Branch cc p ch (.ret p .unsupportedEscapeSequence)
  | closeString (hs : p.currentState = .stringValue) (hch : ch = Delimiters.stringBeginEnd)
      {top : ParserContext} {rest : List ParserContext} (hc : p.contexts = top :: rest)
      (hr : refuses top (.string p.buffer) = false) :
      Branch cc p ch (.brk { p.put top rest (.string p.buffer) with buffer := [] })
  | stringRefused (hs : p.currentState = .stringValue) (hch : ch = Delimiters.stringBeginEnd)
      {top : ParserContext} {rest : List ParserContext} (hc : p.contexts = top :: rest)
      (hr : refuses top (.string p.buffer) = true) :
      Branch cc p ch
        (.ret { p with contexts := (storeValue top (.string p.buffer)).1 :: rest }
          .keyAlreadyExists)
  | stringEmpty (hs : p.currentState = .stringValue) (hch : ch = Delimiters.stringBeginEnd)
      (hc : p.contexts = []) : Branch cc p ch .undefined
  | openKey (hs : p.currentState = .beforeKey) (hch : ch = Delimiters.stringBeginEnd) :
      Branch cc p ch (.brk { p with currentState := .key })
  | endInBeforeKey (hs : p.currentState = .beforeKey) (hch : ch = Delimiters.endObject) :
      Branch cc p ch (.brkBack { p with currentState := .afterValueObject })
  | closeKey (hs : p.currentState = .key) (hch : ch = Delimiters.stringBeginEnd)
      {top : ParserContext} {rest : List ParserContext} (hc : p.contexts = top :: rest) :
      Branch cc p ch
        (.brk { p with
          contexts := { top with key := p.buffer } :: rest
          buffer := []
          currentState := .beforeValue })
  | keyEmpty (hs : p.currentState = .key) (hch : ch = Delimiters.stringBeginEnd)
      (hc : p.contexts = []) : Branch cc p ch .undefined
  | colon (hs : p.currentState = .beforeValue) (hch : ch = Delimiters.nameSeparator) :
      Branch cc p ch (.brk { p with currentState := .value })
  | illegal (hs : p.currentState.skipsBlanks = true) (hv : p.currentState ≠ .value)
      (hch : isWhitespace ch = false) :
      Branch cc p ch (.ret p .illegalDelimiter)
  | commaObject (hs : p.currentState = .afterValueObject)
      (hch : ch = Delimiters.valueSeparator) :
      Branch cc p ch (.brk { p with currentState := .beforeKey })
  | commaArray (hs : p.currentState = .afterValueArray) (hch : ch = Delimiters.valueSeparator) :
      Branch cc p ch (.brk { p with currentState := .value })
  | closeRoot (hs : Closes p.currentState ch) {current : ParserContext}
      (hc : p.contexts = [current]) :
      Branch cc p ch (.ret { p with contexts := [], root := current.value } .completed)
  | closeContainer (hs : Closes p.currentState ch) {current top : ParserContext}
      {rest : List ParserContext} (hc : p.contexts = current :: top :: rest)
      (hr : p.currentState = .afterValueArray ∨ refuses top (toValue current.value) = false) :
      Branch cc p ch (.brk (p.put top rest (toValue current.value)))
  | closeRefused (hs : p.currentState = .afterValueObject) (hch : ch = Delimiters.endObject)
      {current top : ParserContext} {rest : List ParserContext}
      (hc : p.contexts = current :: top :: rest)
      (hr : refuses top (toValue current.value) = true) :
      Branch cc p ch
        (.ret { p with contexts := (storeValue top (toValue current.value)).1 :: rest }
          .keyAlreadyExists)
  | closeEmpty (hs : Closes p.currentState ch) (hc : p.contexts = []) :
      Branch cc p ch .undefined

section

variable {cc : CharConv} {p : Parser} {ch : Byte}

theorem onValue_branch (hs : p.currentState = .value) : Branch cc p ch (onValue p ch) := by
  simp only [onValue]
  split_ifs with h₁ hd h₂ hd h₃ h₄ hc hw hc
  · exact .tooDeep hs (.inl h₁) hd
  · exact .openArray hs h₁ (by simpa using hd)
  · exact .tooDeep hs (.inr h₂) hd
  · exact .openObject hs h₂ (by simpa using hd)
  · exact .endInValue hs h₃
  · exact .leafAtTop hs (by rw [h₄]; rfl) h₁ h₂ h₃ (List.length_eq_zero_iff.mp hc)
  · exact .openString hs h₄ fun h => hc (by simp [h])
  · exact .leafAtTop hs (by simpa using hw) h₁ h₂ h₃ (List.length_eq_zero_iff.mp hc)
  · exact .openLiteral hs (by simpa using hw) h₁ h₂ h₃ h₄ fun h => hc (by simp [h])
  · exact .blank (by rw [hs]; rfl) (by simpa using hw)

theorem onLiteral_branch (hs : p.currentState = .literal) :
    Branch cc p ch (onLiteral cc p ch) := by
  simp only [onLiteral]
  split
  · rename_i he
    cases hc : p.contexts with
    | nil => exact .literalEmpty hs he hc
    | cons top rest =>
      cases hv : makeValue cc p.buffer with
      | none =>
        simp only [storeLiteral, hv]
        simp only [ne_eq, reduceCtorEq, not_false_eq_true, if_true]
        rw [← hc]
        exact .literalInvalid hs he hc hv
      | some val =>
        simp only [storeLiteral, hv, storeValue_err, storeValue_moved]
        cases hr : refuses top val with
        | true => exact .literalRefused hs he hc hv hr
        | false =>
          simp only [Bool.false_eq_true, if_false, ne_eq, not_true_eq_false]
          cases hw : isWhitespace ch with
          | true => exact .literalBlank hs hw hc hv hr
          | false => exact .literalBack hs he hw hc hv hr
  · rename_i he
    exact .literalChar hs he

theorem onQuoted_branch {escState : ParserState} (hs : Quoted p.currentState escState)
    {close : Flow} (hclose : ch = Delimiters.stringBeginEnd → Branch cc p ch close) :
    Branch cc p ch (onQuoted escState close p ch) := by
  simp only [onQuoted]
  split_ifs with h₁ h₂ h₃
  · exact hclose h₁
  · exact .beginEsc hs h₂
  · exact .rawIllegal hs h₃ h₁ h₂
  · exact .rawChar hs (by simpa using h₃)

theorem onEscSeq_branch {quotedState : ParserState} (hs : Quoted quotedState p.currentState) :
    Branch cc p ch (onEscSeq quotedState p ch) := by
  simp only [onEscSeq]
  cases h : unescape ch with
  | some val => exact .escChar hs h
  | none => exact .escIllegal hs h

theorem closeStringValue_branch (hs : p.currentState = .stringValue)
    (hch : ch = Delimiters.stringBeginEnd) : Branch cc p ch (closeStringValue p) := by
  simp only [closeStringValue]
  cases hc : p.contexts with
  | nil => exact .stringEmpty hs hch hc
  | cons top rest =>
    simp only [storeValue_err, storeValue_moved]
    cases hr : refuses top (.string p.buffer) with
    | true => exact .stringRefused hs hch hc hr
    | false => exact .closeString hs hch hc hr

theorem closeKey_branch (hs : p.currentState = .key) (hch : ch = Delimiters.stringBeginEnd) :
    Branch cc p ch (closeKey p) := by
  simp only [Jopp.closeKey]
  cases hc : p.contexts with
  | nil => exact .keyEmpty hs hch hc
  | cons top rest => exact .closeKey hs hch hc

theorem onBeforeKey_branch (hs : p.currentState = .beforeKey) :
    Branch cc p ch (onBeforeKey p ch) := by
  simp only [onBeforeKey]
  split_ifs with h₁ h₂ h₃
  · exact .openKey hs h₁
  · exact .endInBeforeKey hs h₂
  · exact .illegal (by rw [hs]; rfl) (by rw [hs]; decide) (by simpa using h₃)
  · exact .blank (by rw [hs]; rfl) (by simpa using h₃)

theorem onBeforeValue_branch (hs : p.currentState = .beforeValue) :
    Branch cc p ch (onBeforeValue p ch) := by
  simp only [onBeforeValue]
  split_ifs with h₁ h₂
  · exact .colon hs h₁
  · exact .illegal (by rw [hs]; rfl) (by rw [hs]; decide) (by simpa using h₂)
  · exact .blank (by rw [hs]; rfl) (by simpa using h₂)

theorem onAfterValueObject_branch (hs : p.currentState = .afterValueObject) :
    Branch cc p ch (onAfterValueObject p ch) := by
  simp only [onAfterValueObject]
  split_ifs with h₁ h₂ h₃
  · have hcl : Closes p.currentState ch := by rw [hs, h₁]; exact .object
    match hc : p.contexts with
    | [] => exact .closeEmpty hcl hc
    | [current] => exact .closeRoot hcl hc
    | current :: top :: rest =>
      simp only [storeContainer, storeValue_err]
      cases hr : refuses top (toValue current.value) with
      | true => exact .closeRefused hs h₁ hc hr
      | false => exact .closeContainer hcl hc (.inr hr)
  · exact .commaObject hs h₂
  · exact .illegal (by rw [hs]; rfl) (by rw [hs]; decide) (by simpa using h₃)
  · exact .blank (by rw [hs]; rfl) (by simpa using h₃)

theorem onAfterValueArray_branch (hs : p.currentState = .afterValueArray) :
    Branch cc p ch (onAfterValueArray p ch) := by
  simp only [onAfterValueArray]
  split_ifs with h₁ h₂ h₃
  · have hcl : Closes p.currentState ch := by rw [hs, h₁]; exact .array
    match hc : p.contexts with
    | [] => exact .closeEmpty hcl hc
    | [current] => exact .closeRoot hcl hc
    | current :: top :: rest => exact .closeContainer hcl hc (.inl hs)
  · exact .commaArray hs h₂
  · exact .illegal (by rw [hs]; rfl) (by rw [hs]; decide) (by simpa using h₃)
  · exact .blank (by rw [hs]; rfl) (by simpa using h₃)

end

theorem pass_branch (cc : CharConv) (p : Parser) (ch : Byte) : Branch cc p ch (pass cc p ch) := by
  cases hs : p.currentState <;> simp only [pass, hs]
  case value => exact onValue_branch hs
  case literal => exact onLiteral_branch hs
  case stringValue =>
    exact onQuoted_branch (by rw [hs]; exact .stringValue) (closeStringValue_branch hs)
  case stringValueEscSeq => exact onEscSeq_branch (by rw [hs]; exact .stringValue)
  case beforeKey => exact onBeforeKey_branch hs
  case key => exact onQuoted_branch (by rw [hs]; exact .key) (closeKey_branch hs)
  case keyEscSeq => exact onEscSeq_branch (by rw [hs]; exact .key)
  case beforeValue => exact onBeforeValue_branch hs
  case afterValueObject => exact onAfterValueObject_branch hs
  case afterValueArray => exact onAfterValueArray_branch hs

end Jopp
