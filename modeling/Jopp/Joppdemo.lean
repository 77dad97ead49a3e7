import Jopp.Lib.Deliver
import Jopp.Parser.Strings
import Jopp.Parser.Stored
import Jopp.JsonBuffer

/-!
# Jopp.Joppdemo

The program `joppdemo` (`bin/joppdemo.cpp`): it reads a document from `stdin` and writes it back to
`stdout`, both through buffers of 4096 bytes.

* `ReadResult` and `Deliver.Answer` are what `::read` and `::write` return, in the order of the
  calls; a run with too few of them is left `waiting`.
* `readInput`, `writeBlock`, `writeOutput`, `joppdemo`: the three loops, and `main`.
* `joppdemoSpec`: what the program is for, by one parse of all that is read, and one delivery of the
  text. `joppdemo_refines`: the loops do that, whatever the pieces are, unless buffers of 4096 bytes
  leave the last newline alone, which is then lost (`Container.printed`).
* `joppdemo_prints`: what is on `stdout` in the end. `joppdemo_twice`: the program reads its own
  output, and prints the same again.

A `::read` that fails with an `errno` other than `EAGAIN` makes a span of `SIZE_MAX` bytes, which is
undefined. A `::write` that fails so moves the pointer back by one byte, which is undefined at the
start of the buffer, and anywhere else sends that byte again.
-/

namespace Jopp

open Deliver

/-- What `::read` returns: bytes, of which there are none at the end of the file, or -1. -/
inductive ReadResult where
  | bytes (buffer : Str)
  | again
  | failed

def errorText (ec : ParserErrorCode) : String := "error: " ++ parserErrorCodeToString ec ++ "\n"

inductive ReadOutcome where
  | parsed (root : Container)
  | exited (status : Int) (stderr : String)
  | undefined
  | waiting
  | outOfFuel

/-- The loop that reads. -/
def readInput (cc : CharConv) : List ReadResult → Parser → ParserErrorCode → ReadOutcome
  | [], _, _ => .waiting
  | .bytes buffer :: reads, parser, oldEc =>
    if buffer.length = 0 then
      if oldEc ≠ .completed then .exited (-1) (errorText oldEc) else .parsed parser.root
    else
      match parse cc parser buffer with
      | .returned res parser =>
        if res.ec = .completed then .parsed parser.root
        else if res.ec ≠ .moreDataNeeded then .exited (-1) (errorText res.ec)
        else readInput cc reads parser res.ec
      | .undefined => .undefined
      | .outOfFuel => .outOfFuel
  | .again :: reads, parser, oldEc => readInput cc reads parser oldEc
  | .failed :: _, _, _ => .undefined

/-- The loop that writes one buffer, from `writePtr` on. The pointer is an offset. -/
def writeBlock (buffer : Str) : List Answer → Nat → Nat → Delivery Byte
  | [], _, bytesToWrite => ⟨[], if bytesToWrite = 0 then .sent else .waiting, []⟩
  | answer :: answers, writePtr, bytesToWrite =>
    if bytesToWrite = 0 then ⟨[], .sent, answer :: answers⟩
    else
      match answer with
      | .accepted n =>
        let bytesWritten := min n bytesToWrite
        if bytesWritten = 0 then ⟨[], .refused, answers⟩
        else (writeBlock buffer answers (writePtr + bytesWritten)
          (bytesToWrite - bytesWritten)).prepend ((buffer.drop writePtr).take bytesWritten)
      | .again => writeBlock buffer answers writePtr bytesToWrite
      | .failed =>
        -- -1 is added to the pointer, and taken from the count
        if writePtr = 0 then ⟨[], .invalid, answers⟩
        else writeBlock buffer answers (writePtr - 1) (bytesToWrite + 1)

inductive MainOutcome where
  | exited (status : Int) (stdout : Str) (stderr : String)
  | undefined (stdout : Str)
  | waiting (stdout : Str)
  | outOfFuel

def MainOutcome.prepend (w : Str) : MainOutcome → MainOutcome
  | .exited status stdout stderr => .exited status (w ++ stdout) stderr
  | .undefined stdout => .undefined (w ++ stdout)
  | .waiting stdout => .waiting (w ++ stdout)
  | .outOfFuel => .outOfFuel

/-- The loop that writes, with at most `calls` calls of the serializer. -/
def writeOutput (cc : CharConv) : Nat → List Answer → Serializer → MainOutcome
  | 0, _, _ => .outOfFuel
  | calls + 1, answers, serializer =>
    match serialize cc serializer 4096 with
    | .outOfFuel => .outOfFuel
    | .returned buffer ec serializer =>
      let block := writeBlock buffer answers 0 buffer.length
      match block.ending with
      | .waiting => .waiting block.accepted
      | .invalid => .undefined block.accepted
      | .refused => .exited (-1) block.accepted ""
      | .sent =>
        if ec = .completed then .exited 0 block.accepted ""
        else if ec ≠ .bufferIsFull then .exited (-1) block.accepted ""
        else (writeOutput cc calls block.unread serializer).prepend block.accepted

/-- `main`. -/
def joppdemo (cc : CharConv) (calls : Nat) (reads : List ReadResult) (writes : List Answer) :
    MainOutcome :=
  match readInput cc reads (Parser.init .empty defaultMaxLevels) .completed with
  | .parsed root => writeOutput cc calls writes (Serializer.init root false)
  | .exited status stderr => .exited status [] stderr
  | .undefined => .undefined []
  | .waiting => .waiting []
  | .outOfFuel => .outOfFuel

/-! ## What it is for -/

inductive InputEnding where
  | endOfFile
  | failed
  | waiting
deriving DecidableEq

/-- The bytes the reads deliver together, and how they end. -/
def delivered : List ReadResult → Str × InputEnding
  | [] => ([], .waiting)
  | .bytes buffer :: reads =>
    if buffer = [] then ([], .endOfFile)
    else (buffer ++ (delivered reads).1, (delivered reads).2)
  | .again :: reads => delivered reads
  | .failed :: _ => ([], .failed)

/-- What happens at the end of the input, if the document is not complete. -/
def atEnd (root : Container) (oldEc : ParserErrorCode) : InputEnding → ReadOutcome
  | .endOfFile => if oldEc ≠ .completed then .exited (-1) (errorText oldEc) else .parsed root
  | .failed => .undefined
  | .waiting => .waiting

/-- All input at once. -/
def readSpec (cc : CharConv) (input : Str) (ending : InputEnding) (parser : Parser)
    (oldEc : ParserErrorCode) : ReadOutcome :=
  match parse cc parser input with
  | .returned res parser =>
    if res.ec = .completed then .parsed parser.root
    else if res.ec ≠ .moreDataNeeded then .exited (-1) (errorText res.ec)
    else atEnd parser.root (if input = [] then oldEc else .moreDataNeeded) ending
  | .undefined => .undefined
  | .outOfFuel => .outOfFuel

def MainOutcome.ofDelivery (d : Delivery Byte) : MainOutcome :=
  match d.ending with
  | .sent => .exited 0 d.accepted ""
  | .refused => .exited (-1) d.accepted ""
  | .invalid => .undefined d.accepted
  | .waiting => .waiting d.accepted

def joppdemoSpec (cc : CharConv) (input : Str) (ending : InputEnding) (writes : List Answer) :
    MainOutcome :=
  match readSpec cc input ending (Parser.init .empty defaultMaxLevels) .completed with
  | .parsed root => .ofDelivery (deliver 4096 (root.text cc false) writes 0)
  | .exited status stderr => .exited status [] stderr
  | .undefined => .undefined []
  | .waiting => .waiting []
  | .outOfFuel => .outOfFuel

/-- What of the text is sent: not the last newline, where that is all the last buffer would hold. -/
def Container.printed (cc : CharConv) (t : Container) : Str :=
  if (t.text cc false).length % 4096 = 1 then (t.text cc false).dropLast else t.text cc false

/-! ## Reading -/

section

variable {cc : CharConv} {p q : Parser} {u v : Str} {res : ParseResult}

theorem parse_append_undefined (h : parse cc p u = .undefined) (v : Str) :
    parse cc p (u ++ v) = .undefined := by
  rw [parse_eq_scan] at h ⊢
  cases hrun : Resumable.scan (step cc) p u with
  | more q =>
    rw [hrun] at h
    cases h
  | stopped q e n =>
    rw [hrun] at h
    rw [Resumable.scan_append_stopped hrun v]
    cases e with
    | none => rfl
    | some ec => cases h

theorem readSpec_append (h : parse cc p u = .returned res q) (hec : res.ec = .moreDataNeeded)
    (hu : u ≠ []) (ending : InputEnding) (oldEc : ParserErrorCode) :
    readSpec cc (u ++ v) ending p oldEc = readSpec cc v ending q .moreDataNeeded := by
  have happend := parseChunks_eq_parse cc p [u, v]
  simp only [List.flatten_cons, List.flatten_nil, List.append_nil, parseChunks, h, hec, if_true]
    at happend
  have hne : u ++ v ≠ [] := fun hnil => hu (List.append_eq_nil_iff.mp hnil).1
  unfold readSpec
  rw [← happend]
  cases hv : parse cc q v with
  | undefined | outOfFuel => rfl
  | returned res' r =>
    by_cases hec' : res'.ec = .moreDataNeeded <;> simp [hec', hne]

theorem readInput_eq (reads : List ReadResult) (oldEc : ParserErrorCode) :
    readInput cc reads p oldEc = readSpec cc (delivered reads).1 (delivered reads).2 p oldEc := by
  induction reads generalizing p oldEc with
  | nil => rfl
  | cons result reads ih =>
    cases result with
    | again => exact ih oldEc
    | failed => rfl
    | bytes buffer =>
      by_cases hbuffer : buffer = []
      · subst hbuffer
        rfl
      · have hlen : buffer.length ≠ 0 := mt List.length_eq_zero_iff.mp hbuffer
        simp only [readInput, delivered, hlen, hbuffer, if_false]
        cases hp : parse cc p buffer with
        | undefined => simp only [readSpec, parse_append_undefined hp]
        | outOfFuel => exact absurd hp (parse_ne_outOfFuel cc p buffer)
        | returned res q =>
          by_cases hec : res.ec = .moreDataNeeded
          · rw [readSpec_append hp hec hbuffer]
            simp [hec, ih]
          · simp [readSpec, parse_append hp hec, hec]

/-! ## Writing -/

theorem writeBlock_eq {buffer : Str} (hbuffer : buffer.length ≤ 4096) (answers : List Answer)
    {writePtr bytesToWrite : Nat} (h : writePtr + bytesToWrite = buffer.length) :
    writeBlock buffer answers writePtr bytesToWrite = deliver 4096 buffer answers writePtr := by
  induction answers generalizing writePtr bytesToWrite with
  | nil =>
    have hend : buffer.length ≤ writePtr ↔ bytesToWrite = 0 := by omega
    simp only [writeBlock, deliver, hend]
  | cons answer answers ih =>
    by_cases hzero : bytesToWrite = 0
    · rw [deliver_end (by omega)]
      simp only [writeBlock, hzero, if_true]
    · have hend : ¬ buffer.length ≤ writePtr := by omega
      have hmod : writePtr % 4096 = writePtr := Nat.mod_eq_of_lt (by omega)
      have hoffered : offered 4096 buffer writePtr = bytesToWrite := by
        unfold offered
        omega
      simp only [writeBlock, deliver, hzero, hend, if_false]
      cases answer with
      | again => exact ih h
      | failed =>
        simp only [hmod]
        split
        · rfl
        · exact ih (by omega)
      | accepted n =>
        simp only [hoffered]
        split
        · rfl
        · rw [ih (by omega)]

theorem ofDelivery_prepend (w : Str) (d : Delivery Byte) :
    MainOutcome.ofDelivery (d.prepend w) = (MainOutcome.ofDelivery d).prepend w := by
  obtain ⟨accepted, ending, unread⟩ := d
  cases ending <;> rfl

theorem ofDelivery_exited {d : Delivery Byte} {out : Str} :
    MainOutcome.ofDelivery d = .exited 0 out "" ↔ d.ending = .sent ∧ d.accepted = out := by
  obtain ⟨accepted, ending, unread⟩ := d
  cases ending <;> simp [MainOutcome.ofDelivery]

theorem decisive_le_text (s : Serializer) : s.decisive cc ≤ (s.text cc).length :=
  Drain.decisive_le ..

/-- Where everything can be escaped, the loop delivers the text of the serializer. -/
theorem writeOutput_eq (cc : CharConv) {calls : Nat} {s : Serializer} (answers : List Answer)
    (hs : ¬ s.Stuck cc) (hcalls : s.decisive cc / 4096 < calls) :
    writeOutput cc calls answers s = .ofDelivery
      (deliver 4096 ((s.text cc).take (4096 * (s.decisive cc / 4096 + 1))) answers 0) := by
  induction calls generalizing s answers with
  | zero => omega
  | succ calls ih =>
    have hblock : ((s.text cc).take 4096).length ≤ 4096 := by
      rw [List.length_take]
      omega
    have hwrite := writeBlock_eq hblock answers (Nat.zero_add _)
    rcases serialize_call cc s 4096 with
      ⟨s', hcall, htext, hdec, hstuck, hle⟩ | ⟨s', hcall, hlt, -⟩ | ⟨s', -, -, hyes⟩
    · -- a full block, and then what the next calls write
      have hfull : ((s.text cc).take 4096).length = 4096 := by
        have hlong : s.decisive cc ≤ (s.text cc).length := decisive_le_text s
        rw [List.length_take]
        omega
      have hsplit : 4096 * (s.decisive cc / 4096 + 1) =
          4096 + 4096 * (s'.decisive cc / 4096 + 1) := by omega
      rw [hsplit, List.take_add, ← htext, deliver_append hfull]
      simp only [writeOutput, hcall, hwrite, Delivery.andThen]
      generalize deliver 4096 ((s.text cc).take 4096) answers 0 = d
      obtain ⟨accepted, ending, unread⟩ := d
      cases ending with
      | sent =>
        simp only [reduceCtorEq, if_false, if_true, ne_eq, not_true_eq_false]
        rw [ih unread (mt hstuck.mp hs) (by omega), ofDelivery_prepend]
      | refused | invalid | waiting => rfl
    · have hzero : s.decisive cc / 4096 = 0 := Nat.div_eq_of_lt hlt
      rw [hzero]
      simp only [writeOutput, hcall, hwrite]
      show _ = MainOutcome.ofDelivery (deliver 4096 ((s.text cc).take 4096) answers 0)
      generalize deliver 4096 ((s.text cc).take 4096) answers 0 = d
      obtain ⟨accepted, ending, unread⟩ := d
      cases ending <;> rfl
    · exact absurd hyes hs

/-! ## The whole program -/

theorem readSpec_parsed {input : Str} {ending : InputEnding} {root : Container} :
    readSpec cc input ending (Parser.init .empty defaultMaxLevels) .completed = .parsed root ↔
      Completes cc defaultMaxLevels input root ∨
        input = [] ∧ ending = .endOfFile ∧ root = .empty := by
  by_cases hinput : input = []
  · subst hinput
    have hnot : ¬ Completes cc defaultMaxLevels [] root := by
      rintro ⟨res, q, hrun, hec, -⟩
      cases hrun
      cases hec
    have hspec : readSpec cc [] ending (Parser.init .empty defaultMaxLevels) .completed =
        atEnd .empty .completed ending := rfl
    rw [hspec, or_iff_right hnot]
    cases ending <;> simp [atEnd, eq_comm]
  · have hend : ∀ q : Parser, atEnd q.root .moreDataNeeded ending ≠ .parsed root := fun q => by
      cases ending <;> simp [atEnd]
    rw [or_iff_left fun h => hinput h.1]
    unfold readSpec Completes
    cases hp : parse cc (Parser.init .empty defaultMaxLevels) input with
    | undefined | outOfFuel => simp
    | returned res q =>
      by_cases hec : res.ec = .completed
      · simp [hec]
      · by_cases hmore : res.ec = .moreDataNeeded <;> simp [hec, hmore, hinput, hend]

theorem completes_escapable {w : Str} {t : Container} {maxLevels : Option Nat}
    (h : Completes cc maxLevels w t) : (toValue t).AllStrings Escapable := by
  obtain ⟨res, q, hrun, hec, rfl⟩ := h
  have hclean : (Parser.init .empty maxLevels).Clean :=
    ⟨.inr escapable_nil, fun c hc => absurd hc List.not_mem_nil⟩
  have hsat := clean_scan cc hclean w
  rw [stopped_of_completed hrun hec] at hsat
  exact hsat rfl

theorem readSpec_escapable {input : Str} {ending : InputEnding} {root : Container}
    (h : readSpec cc input ending (Parser.init .empty defaultMaxLevels) .completed =
      .parsed root) : (toValue root).AllStrings Escapable := by
  rcases readSpec_parsed.mp h with hcompletes | ⟨-, -, rfl⟩
  · exact completes_escapable hcompletes
  · decide

/-- The serializer has completed when one byte is left, and that byte is not sent. -/
theorem output_eq_printed {t : Container} (hesc : (toValue t).AllStrings Escapable) :
    t.output cc 4096 = t.printed cc := by
  have hlen := init_decisive cc t false hesc
  simp only [Bool.false_eq_true, if_false] at hlen
  unfold Container.output Container.printed
  split
  · rw [List.dropLast_eq_take]
    congr 1
    omega
  · refine List.take_of_length_le ?_
    omega

theorem writeOutput_init {root : Container} (hesc : (toValue root).AllStrings Escapable)
    (answers : List Answer) {n : Nat} (hn : (root.text cc false).length / 4096 + 1 ≤ n) :
    writeOutput cc n answers (Serializer.init root false) =
      .ofDelivery (deliver 4096 (root.printed cc) answers 0) := by
  obtain ⟨hstuck, hdecisive⟩ : ¬ (Serializer.init root false).Stuck cc ∧ _ := init_unstuck hesc
  rw [writeOutput_eq cc answers hstuck (by omega), init_text, hdecisive, ← output_eq_printed hesc]
  rfl

/-- The input is read as `t`. Where it ends at once, the container is left as it was made. -/
def ReadAs (cc : CharConv) (reads : List ReadResult) (t : Container) : Prop :=
  Completes cc defaultMaxLevels (delivered reads).1 t ∨
    delivered reads = ([], .endOfFile) ∧ t = .empty

theorem readAs_iff {reads : List ReadResult} {t : Container} :
    readSpec cc (delivered reads).1 (delivered reads).2 (Parser.init .empty defaultMaxLevels)
      .completed = .parsed t ↔ ReadAs cc reads t := by
  rw [readSpec_parsed, ReadAs, Prod.ext_iff, and_assoc]

theorem joppdemo_delivers {reads : List ReadResult} {t : Container} (ht : ReadAs cc reads t)
    (writes : List Answer) :
    ∃ calls, ∀ n, calls ≤ n → joppdemo cc n reads writes =
      .ofDelivery (deliver 4096 (t.printed cc) writes 0) := by
  have hspec := readAs_iff.mpr ht
  refine ⟨(t.text cc false).length / 4096 + 1, fun n hn => ?_⟩
  simp only [joppdemo, readInput_eq, hspec]
  exact writeOutput_init (readSpec_escapable hspec) writes hn

theorem joppdemoSpec_delivers {reads : List ReadResult} {t : Container} (ht : ReadAs cc reads t)
    (writes : List Answer) : joppdemoSpec cc (delivered reads).1 (delivered reads).2 writes =
      .ofDelivery (deliver 4096 (t.text cc false) writes 0) := by
  simp only [joppdemoSpec, readAs_iff.mpr ht]

/-- **The loops do what the program is for**, whatever pieces the input comes in and the output is
taken in, and in whatever order the calls fail, exactly if the text of the tree is not one byte
longer than some whole buffers. Where it is, all is done but to send the last byte. -/
theorem joppdemo_refines (cc : CharConv) (reads : List ReadResult) :
    ((∀ writes, ∃ calls, ∀ n, calls ≤ n → joppdemo cc n reads writes =
        joppdemoSpec cc (delivered reads).1 (delivered reads).2 writes) ↔
      ∀ t, ReadAs cc reads t → (t.text cc false).length % 4096 ≠ 1) ∧
    ∀ t, ReadAs cc reads t → (t.text cc false).length % 4096 = 1 →
      ∀ writes, ∃ calls, ∀ n, calls ≤ n → joppdemo cc n reads writes =
        .ofDelivery (deliver 4096 (t.text cc false).dropLast writes 0) := by
  refine ⟨⟨fun hrefines t ht hlen => ?_, fun hlen writes => ?_⟩, fun t ht hlen writes => ?_⟩
  · -- a device that takes all of the text is sent less
    obtain ⟨writes, hwrites⟩ :=
      exists_answers Byte (by decide : 0 < 4096) (t.text cc false).length
    have hdevice : ∀ l : Str, l.length ≤ (t.text cc false).length →
        MainOutcome.ofDelivery (deliver 4096 l writes 0) = .exited 0 l "" := fun l hl =>
      ofDelivery_exited.mpr (hwrites l hl)
    obtain ⟨calls, hcalls⟩ := hrefines writes
    obtain ⟨calls', hcalls'⟩ := joppdemo_delivers ht writes
    have hrun := (hcalls' _ (Nat.le_max_right calls calls')).symm.trans
      (hcalls _ (Nat.le_max_left calls calls'))
    rw [joppdemoSpec_delivers ht, Container.printed, if_pos hlen, hdevice _ (Nat.le_refl _),
      hdevice _ (by rw [List.length_dropLast]; omega)] at hrun
    have heq := congrArg List.length (MainOutcome.exited.inj hrun).2.1
    rw [List.length_dropLast] at heq
    omega
  · cases hspec : readSpec cc (delivered reads).1 (delivered reads).2
      (Parser.init .empty defaultMaxLevels) .completed with
    | exited status stderr =>
      exact ⟨0, fun _ _ => by simp only [joppdemo, joppdemoSpec, readInput_eq, hspec]⟩
    | undefined | waiting | outOfFuel =>
      exact ⟨0, fun _ _ => by simp only [joppdemo, joppdemoSpec, readInput_eq, hspec]⟩
    | parsed t =>
      have ht := readAs_iff.mp hspec
      have hdelivers := joppdemo_delivers ht writes
      rw [Container.printed, if_neg (hlen t ht)] at hdelivers
      rw [joppdemoSpec_delivers ht]
      exact hdelivers
  · have hdelivers := joppdemo_delivers ht writes
    rwa [Container.printed, if_pos hlen] at hdelivers

/-- The program ends with success, and has written `out`. -/
def Prints (cc : CharConv) (reads : List ReadResult) (writes : List Answer) (out : Str) : Prop :=
  ∃ calls, ∀ n, calls ≤ n → joppdemo cc n reads writes = .exited 0 out ""

theorem prints_iff {reads : List ReadResult} {t : Container} (ht : ReadAs cc reads t)
    {writes : List Answer} {out : Str} :
    Prints cc reads writes out ↔
      (deliver 4096 (t.printed cc) writes 0).ending = .sent ∧
        (deliver 4096 (t.printed cc) writes 0).accepted = out := by
  obtain ⟨calls, hcalls⟩ := joppdemo_delivers ht writes
  rw [← ofDelivery_exited]
  constructor
  · rintro ⟨calls', hprints⟩
    rw [← hcalls _ (Nat.le_max_left calls calls')]
    exact hprints _ (Nat.le_max_right calls calls')
  · intro hsent
    exact ⟨calls, fun n hn => (hcalls n hn).trans hsent⟩

def Waits (cc : CharConv) (reads : List ReadResult) (writes : List Answer) (out : Str) : Prop :=
  ∃ calls, ∀ n, calls ≤ n → joppdemo cc n reads writes = .waiting out

theorem waits_of_deliver {reads : List ReadResult} {t : Container} (ht : ReadAs cc reads t)
    {writes : List Answer} {out : Str}
    (h : deliver 4096 (t.printed cc) writes 0 = ⟨out, .waiting, []⟩) :
    Waits cc reads writes out := by
  obtain ⟨calls, hcalls⟩ := joppdemo_delivers ht writes
  rw [h] at hcalls
  exact ⟨calls, hcalls⟩

/-- By the results in `met`, and by no fewer of them, the program prints `out`: this is `text`, in
which every failed write is a step back. When it has met some of them, the program has printed the
first `part` of `out`, and stands in `text` at the length of that less the steps back. From there on
it prints the `rest`. -/
structure PrintsBy (cc : CharConv) (reads : List ReadResult) (met : List Answer) (text out : Str) :
    Prop where
  prints : Prints cc reads met out
  resent : Resent text 0 (met.count .failed) out
  waits : ∀ w v, met = w ++ v → v ≠ [] → ∃ part rest p, out = part ++ rest ∧
    Waits cc reads w part ∧ p + w.count .failed = part.length ∧
    Resent text p (v.count .failed) rest

/-- **What the program prints.** Success means that it has met some of the results of `::write`, and
has printed `printed`, going back by one byte at each of these that failed: the byte before is
printed again. So none is missing, and there is one more for each. If no write fails, `printed` is
what is on `stdout`, and a device that goes on accepting leads to it. -/
theorem joppdemo_prints (cc : CharConv) (reads : List ReadResult) (writes : List Answer)
    (t : Container) (ht : ReadAs cc reads t) :
    (∀ out, Prints cc reads writes out → ∃ met unread, writes = met ++ unread ∧
      PrintsBy cc reads met (t.printed cc) out ∧ (t.printed cc).Sublist out ∧
      out.length = (t.printed cc).length + met.count .failed) ∧
    (.failed ∉ writes →
      (∀ out, Prints cc reads writes out → out = t.printed cc) ∧
      (.accepted 0 ∉ writes → (t.printed cc).length ≤ writes.countP Answer.accepts →
        Prints cc reads writes (t.printed cc))) := by
  refine ⟨fun out hprints => ?_, fun hfailed => ⟨fun out hprints => ?_, fun hzero henough => ?_⟩⟩
  · obtain ⟨hsent, rfl⟩ := (prints_iff ht).mp hprints
    obtain ⟨met, hsplit, hmeets⟩ := deliver_met hsent
    refine ⟨met, _, hsplit, ⟨?_, hmeets.resent, fun w v heq hne => ?_⟩, ?_, ?_⟩
    · rw [prints_iff ht, hmeets.sent]
      exact ⟨rfl, rfl⟩
    · obtain ⟨part, rest, p, hout, hwaits, hp, hrest⟩ := hmeets.waiting w v heq hne
      exact ⟨part, rest, p, hout, waits_of_deliver ht hwaits, by omega, hrest⟩
    · have hsub := hmeets.resent.sublist
      rwa [List.drop_zero] at hsub
    · exact hmeets.resent.length (Nat.zero_le _)
  · obtain ⟨hsent, rfl⟩ := (prints_iff ht).mp hprints
    exact accepted_of_sent hfailed hsent
  · exact (prints_iff ht).mpr (deliver_whole (by decide) hfailed hzero henough)

/-- `[1]` in two pieces, with a write that fails behind the second byte. -/
theorem joppdemo_prints_back :
    Prints .binary [.bytes [0x5b], .again, .bytes [0x31, 0x5d]] [.accepted 2, .failed, .accepted 9]
        [0x5b, 0x31, 0x31, 0x5d, 0x0a] ∧
      ((Container.array [.number .one]).printed .binary).Sublist
        [0x5b, 0x31, 0x31, 0x5d, 0x0a] := by
  have hprints : Prints .binary [.bytes [0x5b], .again, .bytes [0x31, 0x5d]]
      [.accepted 2, .failed, .accepted 9] [0x5b, 0x31, 0x31, 0x5d, 0x0a] := by
    refine ⟨1, fun n hn => ?_⟩
    obtain ⟨m, rfl⟩ := Nat.exists_eq_add_of_le' hn
    rfl
  obtain ⟨-, -, -, -, hsub, -⟩ := (joppdemo_prints .binary _ _ (.array [.number .one])
    (.inl ⟨_, _, rfl, rfl, rfl⟩)).1 _ hprints
  exact ⟨hprints, hsub⟩

theorem completes_ordered {w : Str} {t : Container} {maxLevels : Option Nat}
    (h : Completes cc maxLevels w t) : t.Ordered := by
  obtain ⟨res, q, hrun, hec, rfl⟩ := h
  exact parsed_ordered hrun hec

theorem readSpec_exited {p : Parser} {input : Str} {ending : InputEnding} {oldEc : ParserErrorCode}
    {status : Int} {stderr : String}
    (h : readSpec cc input ending p oldEc = .exited status stderr) : status = -1 := by
  unfold readSpec at h
  cases hp : parse cc p input with
  | undefined | outOfFuel =>
    rw [hp] at h
    cases h
  | returned res q =>
    simp only [hp] at h
    split at h
    · cases h
    split at h
    · cases h
      rfl
    · cases ending with
      | failed | waiting => cases h
      | endOfFile =>
        unfold atEnd at h
        generalize (if input = [] then oldEc else ParserErrorCode.moreDataNeeded) = ec at h
        by_cases hec : ec = .completed
        · simp [hec] at h
        · simp only [ne_eq, hec, not_false_eq_true, if_true, ReadOutcome.exited.injEq] at h
          exact h.1.symm

theorem readAs_of_prints {reads : List ReadResult} {writes : List Answer} {out : Str}
    (h : Prints cc reads writes out) : ∃ t, ReadAs cc reads t := by
  obtain ⟨calls, hcalls⟩ := h
  have hrun := hcalls calls (Nat.le_refl _)
  simp only [joppdemo, readInput_eq] at hrun
  cases hspec : readSpec cc (delivered reads).1 (delivered reads).2
    (Parser.init .empty defaultMaxLevels) .completed with
  | undefined | waiting | outOfFuel =>
    rw [hspec] at hrun
    cases hrun
  | exited status stderr =>
    rw [hspec] at hrun
    obtain rfl := readSpec_exited hspec
    cases hrun
  | parsed t =>
    refine ⟨t, (readSpec_parsed.mp hspec).imp_right ?_⟩
    rintro ⟨hbytes, hending, ht⟩
    exact ⟨Prod.ext hbytes hending, ht⟩

theorem output_ne_nil {t : Container} (hesc : (toValue t).AllStrings Escapable) {size : Nat}
    (hsize : 0 < size) : t.output cc size ≠ [] := by
  obtain ⟨rest, htext, hrest⟩ := output_rest cc t hsize
  have hlen := init_decisive cc t false hesc
  intro hnil
  rw [hnil, List.nil_append] at htext
  rw [← htext] at hlen
  simp at hlen
  omega

/-- **Printing what was printed.** The program reads its own output, and prints it again, exactly if
the tree has no empty key. In the first run no write fails. In the second none fails either, the
device never accepts nothing at all, and it accepts something at least as often as there are
bytes. -/
theorem joppdemo_twice (cc : CharConv) (hcc : cc.RoundTrips) (reads reads' : List ReadResult)
    (writes writes' : List Answer) (t : Container) (out : Str)
    (ht : Completes cc defaultMaxLevels (delivered reads).1 t) (hnum : (toValue t).NumbersOnly)
    (hwrites : .failed ∉ writes) (hprints : Prints cc reads writes out)
    (hreads' : delivered reads' = (out, .endOfFile)) (hfailed' : .failed ∉ writes')
    (hzero' : .accepted 0 ∉ writes') (henough' : out.length ≤ writes'.countP Answer.accepts) :
    Prints cc reads' writes' out ↔ (toValue t).KeysNonEmpty := by
  have hord := completes_ordered ht
  have hesc := completes_escapable ht
  obtain ⟨hsent, hall⟩ := (prints_iff (.inl ht)).mp hprints
  have hprinted : t.printed cc = out := (accepted_of_sent hwrites hsent).symm.trans hall
  have hout : t.output cc 4096 = out := (output_eq_printed hesc).trans hprinted
  have hback := completes_output hcc hord hesc hnum (by decide : 0 < 4096) defaultMaxLevels
  rw [hout] at hback
  constructor
  · intro hprints'
    obtain ⟨t', ht'⟩ := readAs_of_prints hprints'
    unfold ReadAs at ht'
    rw [hreads'] at ht'
    rcases ht' with hcompletes | ⟨hnil, -⟩
    · exact ((hback t').mp hcompletes).1
    · have hne : t.output cc 4096 ≠ [] := output_ne_nil hesc (by decide)
      rw [hout] at hne
      exact absurd (congrArg Prod.fst hnil) hne
  · intro hkeys
    have ht' : ReadAs cc reads' t := by
      refine .inl ?_
      rw [hreads']
      exact (hback t).mpr ⟨hkeys, ht.depth, rfl⟩
    rw [prints_iff ht', hprinted]
    exact deliver_whole (by decide) hfailed' hzero' henough'

/-- `[1]`, and what is printed of it. -/
theorem joppdemo_twice_flat :
    Prints .binary [.bytes [0x5b, 0x31, 0x5d, 0x0a], .bytes []]
      [.accepted 3, .again, .accepted 3, .accepted 1, .accepted 1] [0x5b, 0x31, 0x5d, 0x0a] := by
  have hprints : Prints .binary [.bytes [0x5b, 0x31], .bytes [0x5d]] [.accepted 9]
      [0x5b, 0x31, 0x5d, 0x0a] := by
    refine ⟨1, fun n hn => ?_⟩
    obtain ⟨m, rfl⟩ := Nat.exists_eq_add_of_le' hn
    rfl
  exact (joppdemo_twice .binary binary_roundTrips [.bytes [0x5b, 0x31], .bytes [0x5d]] _
    [.accepted 9] _ (.array [.number .one]) _ ⟨_, _, rfl, rfl, rfl⟩ (by decide) (by decide) hprints
    rfl (by decide) (by decide) (by decide)).mpr (by decide)

end

end Jopp
