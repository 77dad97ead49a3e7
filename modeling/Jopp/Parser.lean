import Jopp.Types

/-!
# Jopp.Parser

The resumable parser (`lib/parser.hpp`).

* `Parser`: the members of the class; `Parser.init` is the constructor.
* `pass`: one pass of the loop body up to its `break`, one function for each `case` of the
  `switch` on `m_current_state`.
* `parseLoop`, `parse`: the loop over the input, by position, with the update of line and column
  at its bottom. `parseChunks` is a caller that feeds chunks until one call returns something
  other than `moreDataNeeded`.

`m_contexts.top()` and `m_contexts.pop()` on an empty stack are undefined behaviour; the model
says so with `Flow.undefined` and `Outcome.undefined`. A moved-from `std::string` is empty.
-/

namespace Jopp

inductive ParserErrorCode where
  | completed
  | moreDataNeeded
  | keyAlreadyExists
  | characterMustBeEscaped
  | unsupportedEscapeSequence
  | illegalDelimiter
  | invalidValue
  | noTopLevelNode
  | nestingLevelTooDeep
deriving DecidableEq

structure ParseResult where
  ptr : Nat
  ec : ParserErrorCode
  line : Nat
  col : Nat
deriving DecidableEq

inductive ParserState where
  | value
  | literal
  | stringValue
  | stringValueEscSeq
  | beforeKey
  | key
  | keyEscSeq
  | beforeValue
  | afterValueObject
  | afterValueArray
deriving DecidableEq

structure ParserContext where
  key : Str
  value : Container

structure StoreValueResult where
  nextState : ParserState
  err : ParserErrorCode

/-- Stores `val` in the container of a context, under the key of the context if it is an object.
The context left behind has its key moved out. -/
def storeValue (parent : ParserContext) (val : Value) : ParserContext × StoreValueResult :=
  match parent.value with
  | .object item =>
    let res := SortedMap.insert parent.key val item
    if res.2 = false then
      (⟨[], .object res.1⟩, ⟨.afterValueObject, .keyAlreadyExists⟩)
    else (⟨[], .object res.1⟩, ⟨.afterValueObject, .moreDataNeeded⟩)
  | .array item => (⟨[], .array (item ++ [val])⟩, ⟨.afterValueArray, .moreDataNeeded⟩)

/-- `store_value` for a `literal_view`: on an invalid literal the context is left alone. -/
def storeLiteral (cc : CharConv) (parent : ParserContext) (buffer : Str) :
    ParserContext × StoreValueResult :=
  match makeValue cc buffer with
  | none => (parent, ⟨.value, .invalidValue⟩)
  | some val => storeValue parent val

def storeContainer (parent : ParserContext) (child : Container) :
    ParserContext × StoreValueResult :=
  storeValue parent (toValue child)

structure Parser where
  line : Nat
  col : Nat
  currentState : ParserState
  maxLevels : Option Nat
  /-- The top of the stack comes first. -/
  contexts : List ParserContext
  buffer : Str
  /-- The container behind `m_root`. -/
  root : Container

def Parser.init (root : Container) (maxLevels : Option Nat) : Parser where
  line := 1
  col := 1
  currentState := .value
  maxLevels := maxLevels
  contexts := []
  buffer := []
  root := root

def Parser.currentDepth (p : Parser) : Nat := p.contexts.length

/-- How one pass of the `switch` ends: at a `break` with the byte consumed, at a `break` after
`--ptr`, at a `return`, or in undefined behaviour. -/
inductive Flow where
  | brk (p : Parser)
  | brkBack (p : Parser)
  | ret (p : Parser) (ec : ParserErrorCode)
  | undefined

def Parser.tooDeep (p : Parser) : Bool := p.maxLevels == some p.contexts.length

def onValue (p : Parser) (ch : Byte) : Flow :=
  if ch = Delimiters.beginArray then
    if p.tooDeep then .ret p .nestingLevelTooDeep
    else .brk { p with contexts := ⟨[], .array []⟩ :: p.contexts, currentState := .value }
  else if ch = Delimiters.beginObject then
    if p.tooDeep then .ret p .nestingLevelTooDeep
    else .brk { p with contexts := ⟨[], .object []⟩ :: p.contexts, currentState := .beforeKey }
  else if ch = Delimiters.endArray then
    .brkBack { p with currentState := .afterValueArray }
  else if ch = Delimiters.stringBeginEnd then
    if p.contexts.length = 0 then .ret p .noTopLevelNode
    else .brk { p with currentState := .stringValue }
  else if !isWhitespace ch then
    if p.contexts.length = 0 then .ret p .noTopLevelNode
    else .brk { p with buffer := p.buffer ++ [ch], currentState := .literal }
  else .brk p

def onLiteral (cc : CharConv) (p : Parser) (ch : Byte) : Flow :=
  if ch = Delimiters.valueSeparator ∨ ch = Delimiters.endArray ∨ ch = Delimiters.endObject
      ∨ isWhitespace ch = true then
    match p.contexts with
    | [] => .undefined
    | top :: rest =>
      let stored := storeLiteral cc top p.buffer
      if stored.2.err ≠ .moreDataNeeded then
        .ret { p with contexts := stored.1 :: rest } stored.2.err
      else
        let p' := { p with
          contexts := { stored.1 with key := [] } :: rest
          currentState := stored.2.nextState
          buffer := [] }
        if !isWhitespace ch then .brkBack p' else .brk p'
  else .brk { p with buffer := p.buffer ++ [ch] }

/-- The two states inside a quoted string: `escState` is where a backslash leads, `close` what
the closing quote does. -/
def onQuoted (escState : ParserState) (close : Flow) (p : Parser) (ch : Byte) : Flow :=
  if ch = Delimiters.stringBeginEnd then close
  else if ch = beginEscSeq then .brk { p with currentState := escState }
  else if charShouldBeEscaped ch then .ret p .characterMustBeEscaped
  else .brk { p with buffer := p.buffer ++ [ch] }

/-- The two states behind a backslash. -/
def onEscSeq (quotedState : ParserState) (p : Parser) (ch : Byte) : Flow :=
  match unescape ch with
  | some val => .brk { p with buffer := p.buffer ++ [val], currentState := quotedState }
  | none => .ret p .unsupportedEscapeSequence

def closeStringValue (p : Parser) : Flow :=
  match p.contexts with
  | [] => .undefined
  | top :: rest =>
    let stored := storeValue top (.string p.buffer)
    if stored.2.err ≠ .moreDataNeeded then
      .ret { p with contexts := stored.1 :: rest } stored.2.err
    else
      .brk { p with
        currentState := stored.2.nextState
        contexts := { stored.1 with key := [] } :: rest
        buffer := [] }

def onStringValue (p : Parser) (ch : Byte) : Flow :=
  onQuoted .stringValueEscSeq (closeStringValue p) p ch

def onStringValueEscSeq (p : Parser) (ch : Byte) : Flow := onEscSeq .stringValue p ch

def onBeforeKey (p : Parser) (ch : Byte) : Flow :=
  if ch = Delimiters.stringBeginEnd then .brk { p with currentState := .key }
  else if ch = Delimiters.endObject then .brkBack { p with currentState := .afterValueObject }
  else if !isWhitespace ch then .ret p .illegalDelimiter
  else .brk p

def closeKey (p : Parser) : Flow :=
  match p.contexts with
  | [] => .undefined
  | top :: rest =>
    .brk { p with
      contexts := { top with key := p.buffer } :: rest
      buffer := []
      currentState := .beforeValue }

def onKey (p : Parser) (ch : Byte) : Flow := onQuoted .keyEscSeq (closeKey p) p ch

def onKeyEscSeq (p : Parser) (ch : Byte) : Flow := onEscSeq .key p ch

def onBeforeValue (p : Parser) (ch : Byte) : Flow :=
  if ch = Delimiters.nameSeparator then .brk { p with currentState := .value }
  else if !isWhitespace ch then .ret p .illegalDelimiter
  else .brk p

def onAfterValueObject (p : Parser) (ch : Byte) : Flow :=
  if ch = Delimiters.endObject then
    match p.contexts with
    | [] => .undefined
    | [current] => .ret { p with contexts := [], root := current.value } .completed
    | current :: top :: rest =>
      let stored := storeContainer top current.value
      if stored.2.err ≠ .moreDataNeeded then
        .ret { p with contexts := stored.1 :: rest } stored.2.err
      else .brk { p with contexts := stored.1 :: rest, currentState := stored.2.nextState }
  else if ch = Delimiters.valueSeparator then .brk { p with currentState := .beforeKey }
  else if !isWhitespace ch then .ret p .illegalDelimiter
  else .brk p

/-- Unlike `onAfterValueObject`, only `next_state` of the stored result is looked at. -/
def onAfterValueArray (p : Parser) (ch : Byte) : Flow :=
  if ch = Delimiters.endArray then
    match p.contexts with
    | [] => .undefined
    | [current] => .ret { p with contexts := [], root := current.value } .completed
    | current :: top :: rest =>
      let stored := storeContainer top current.value
      .brk { p with contexts := stored.1 :: rest, currentState := stored.2.nextState }
  else if ch = Delimiters.valueSeparator then .brk { p with currentState := .value }
  else if !isWhitespace ch then .ret p .illegalDelimiter
  else .brk p

/-- The `switch` on `m_current_state`. -/
def pass (cc : CharConv) (p : Parser) (ch : Byte) : Flow :=
  match p.currentState with
  | .value => onValue p ch
  | .literal => onLiteral cc p ch
  | .stringValue => onStringValue p ch
  | .stringValueEscSeq => onStringValueEscSeq p ch
  | .beforeKey => onBeforeKey p ch
  | .key => onKey p ch
  | .keyEscSeq => onKeyEscSeq p ch
  | .beforeValue => onBeforeValue p ch
  | .afterValueObject => onAfterValueObject p ch
  | .afterValueArray => onAfterValueArray p ch

/-- The position update at the bottom of the loop. -/
def Parser.count (p : Parser) (ch : Byte) : Parser :=
  if ch = newline then { p with line := p.line + 1, col := 1 }
  else { p with col := p.col + 1 }

inductive Outcome where
  | returned (res : ParseResult) (p : Parser)
  | undefined
  | outOfFuel

/-- The loop, with at most `fuel` passes, from position `ptr`. -/
def parseLoop (cc : CharConv) (inputSeq : Str) : Nat → Nat → Parser → Outcome
  | 0, _, _ => .outOfFuel
  | fuel + 1, ptr, p =>
    match inputSeq[ptr]? with
    | none => .returned ⟨ptr, .moreDataNeeded, p.line, p.col⟩ p
    | some chIn =>
      let oldPos := ptr
      let ptr := ptr + 1
      match pass cc p chIn with
      | .undefined => .undefined
      | .ret p ec => .returned ⟨ptr, ec, p.line, p.col⟩ p
      | .brk p => parseLoop cc inputSeq fuel ptr (if ptr ≠ oldPos then p.count chIn else p)
      | .brkBack p =>
        let ptr := ptr - 1
        parseLoop cc inputSeq fuel ptr (if ptr ≠ oldPos then p.count chIn else p)

/-- One call of `parser::parse`. The fuel is never used up, see `parse_eq_scan`. -/
def parse (cc : CharConv) (p : Parser) (inputSeq : Str) : Outcome :=
  parseLoop cc inputSeq (2 * inputSeq.length + 1) 0 p

/-- Feed chunks to one parser, up to the first call that does not return `moreDataNeeded`. The
`ptr` of the result is the number of bytes consumed by all calls together. -/
def parseChunks (cc : CharConv) (p : Parser) : List Str → Outcome
  | [] => .returned ⟨0, .moreDataNeeded, p.line, p.col⟩ p
  | chunk :: chunks =>
    match parse cc p chunk with
    | .returned res p =>
      if res.ec = .moreDataNeeded then
        match parseChunks cc p chunks with
        | .returned res' p => .returned { res' with ptr := res.ptr + res'.ptr } p
        | o => o
      else .returned res p
    | o => o

end Jopp
