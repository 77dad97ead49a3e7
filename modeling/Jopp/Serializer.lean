import Jopp.Types

/-!
# Jopp.Serializer

The resumable serializer (`lib/serializer.hpp`).

* `Serializer`: the members of the class; `Serializer.init` is the constructor.
* `fill`: what happens once `m_range_to_write` is used up, that is the part of the loop body that
  puts the next piece of text into `m_string_to_write`.
* `serializeLoop`, `serialize`: the loop over an output buffer, of which the model keeps the size
  and the bytes written to it. `serializeAll` is a caller that passes one buffer after another
  until a call returns something other than `bufferIsFull`.

The range of a context is what its `range_processor` has not handed out yet.
-/

namespace Jopp

inductive SerializerErrorCode where
  | completed
  | bufferIsFull
  | illegalCharInString
deriving DecidableEq

structure SerializerContext where
  range : List ItemPointer
  blockStarter : Byte
  blockTerminator : Byte
  firstItem : Bool

structure WriteBufferResult where
  written : Str
  src : Str
  dest : Nat

def writeBuffer (src : Str) (dest : Nat) : WriteBufferResult :=
  let n := min src.length dest
  ⟨src.take n, src.drop n, dest - n⟩

def makeSerializerContext (val : Container) : SerializerContext :=
  match val with
  | .object members =>
    ⟨itemPointers (.object members), Delimiters.beginObject, Delimiters.endObject, true⟩
  | .array items =>
    ⟨itemPointers (.array items), Delimiters.beginArray, Delimiters.endArray, true⟩

structure Serializer where
  stringToWrite : Str
  rangeToWrite : Str
  /-- The top of the stack comes first. -/
  contexts : List SerializerContext
  prettyPrint : Bool

def Serializer.init (root : Container) (prettyPrint : Bool) : Serializer :=
  let context := makeSerializerContext root
  let string := [context.blockStarter] ++ if prettyPrint then [newline] else []
  { stringToWrite := string
    rangeToWrite := string
    contexts := [context]
    prettyPrint := prettyPrint }

/-- The end of a block: its terminator, on a line of its own when printing prettily. -/
def closeBlock (s : Serializer) (current : SerializerContext) : Str :=
  (if s.prettyPrint then [newline] ++ List.replicate (s.contexts.length - 1) horizontalTab else [])
    ++ [current.blockTerminator]
    ++ if s.contexts.length = 1 then [newline] else []

/-- What precedes an item, its key excepted. -/
def beginItem (s : Serializer) (current : SerializerContext) : Str :=
  (if !current.firstItem then
    [Delimiters.valueSeparator] ++ if s.prettyPrint then [newline] else []
  else [])
    ++ if s.prettyPrint then List.replicate s.contexts.length horizontalTab else []

/-- An empty key is taken for the missing key of an array element. -/
def appendKey (s : Serializer) (str key : Str) : Option Str :=
  if key ≠ [] then
    match wrapString key with
    | none => none
    | some wrappedString =>
      some (str ++ wrappedString ++ [Delimiters.nameSeparator]
        ++ if s.prettyPrint then [space] else [])
  else some str

def pushContext (s : Serializer) (str : Str) (val : Container) : Serializer :=
  let context := makeSerializerContext val
  { s with
    stringToWrite := str ++ [context.blockStarter] ++ if s.prettyPrint then [newline] else []
    contexts := context :: s.contexts }

/-- The visitor of the value of an item. -/
def appendValue (cc : CharConv) (s : Serializer) (str : Str) : Value → Option Serializer
  | .null => some { s with stringToWrite := str ++ nullToString }
  | .boolean b => some { s with stringToWrite := str ++ booleanToString b }
  | .number x => some { s with stringToWrite := str ++ numberToString cc x }
  | .string val =>
    match wrapString val with
    | none => none
    | some str' => some { s with stringToWrite := str ++ str' }
  | .object members => pushContext s str (.object members)
  | .array items => pushContext s str (.array items)

/-- The next text to write, with `current` on top of `rest`; an error leaves behind a serializer
that has taken the offending item off its range. -/
def fill (cc : CharConv) (s : Serializer) (current : SerializerContext)
    (rest : List SerializerContext) : Except Serializer Serializer :=
  match current.range with
  | [] =>
    let str := closeBlock s current
    .ok { s with stringToWrite := str, rangeToWrite := str, contexts := rest }
  | item :: range =>
    let str := beginItem s current
    let s := { s with
      stringToWrite := str
      contexts := { current with range := range, firstItem := false } :: rest }
    match appendKey s str item.key with
    | none => .error s
    | some str =>
      match appendValue cc s str item.value with
      | none => .error { s with stringToWrite := str }
      | some s => .ok { s with rangeToWrite := s.stringToWrite }

inductive SerializeOutcome where
  | returned (written : Str) (ec : SerializerErrorCode) (s : Serializer)
  | outOfFuel

/-- The loop, with at most `fuel` passes, with room for `outputBuffer` more bytes. -/
def serializeLoop (cc : CharConv) : Nat → Nat → Str → Serializer → SerializeOutcome
  | 0, _, _, _ => .outOfFuel
  | fuel + 1, outputBuffer, written, s =>
    if outputBuffer = 0 then .returned written .bufferIsFull s
    else
      let res := writeBuffer s.rangeToWrite outputBuffer
      let s := { s with rangeToWrite := res.src }
      let outputBuffer := res.dest
      let written := written ++ res.written
      match s.contexts with
      | [] => .returned written .completed s
      | current :: rest =>
        if s.rangeToWrite.length = 0 then
          match fill cc s current rest with
          | .error s => .returned written .illegalCharInString s
          | .ok s => serializeLoop cc fuel outputBuffer written s
        else serializeLoop cc fuel outputBuffer written s

/-- An upper bound on the number of texts a context still has to write. -/
def SerializerContext.work (context : SerializerContext) : Nat :=
  (context.range.map fun item => 2 * item.value.nodes.length).sum + 1

def Serializer.work (s : Serializer) : Nat := (s.contexts.map SerializerContext.work).sum

/-- One call of `serializer::serialize`. The fuel is never used up, see `serialize_realizes`. -/
def serialize (cc : CharConv) (s : Serializer) (outputBuffer : Nat) : SerializeOutcome :=
  serializeLoop cc (s.work + 2) outputBuffer [] s

/-- Pass buffers of the given sizes to one serializer, up to the first call that does not return
`bufferIsFull`. The bytes are those written by all calls together. -/
def serializeAll (cc : CharConv) (s : Serializer) : List Nat → SerializeOutcome
  | [] => .returned [] .bufferIsFull s
  | outputBuffer :: outputBuffers =>
    match serialize cc s outputBuffer with
    | .returned written ec s =>
      if ec = .bufferIsFull then
        match serializeAll cc s outputBuffers with
        | .returned written' ec s => .returned (written ++ written') ec s
        | o => o
      else .returned written ec s
    | o => o

end Jopp
