import ClpFfiGo.PipelineSafety
import Mathlib.Logic.Relation

namespace ClpFfiGo

variable {σ ε : Type}

-- A Writer and what its caller made of it: the bytes in the caller's hands, the fate of every event
-- that left the buffer, the events still in it. `pinned` is false only when the buffer holds whole
-- events and nothing else: from a drained `WriteTo` or a `Reset` until the next `Close` or the next
-- failing `WriteTo` that took some bytes, also when those bytes end where an event ends.
structure Desk where
  writer : Writer
  output : List UInt8
  settled : List (LogEvent × Bool)
  pending : List LogEvent
  pinned : Bool
  closed : Bool

namespace Desk

def start (writer : Writer) : Desk := ⟨writer, [], [], [], true, false⟩

def log (s : Desk) : List (LogEvent × Bool) := s.settled ++ s.pending.map (·, true)

def settle (kept : Bool) (s : Desk) : Desk :=
  { s with settled := s.settled ++ s.pending.map (·, kept), pending := [], pinned := false }

def wrote (ε : Type) (clp : IrWriteApi) (s : Desk) (event : LogEvent) : Desk :=
  match s.writer.write (ε := ε) clp event with
  | (writer, _, none) => { s with writer, pending := s.pending ++ [event] }
  | (writer, _, some _) => { s with writer }

def flushed (s : Desk) (w : Sink ε) : Desk :=
  let taken := s.writer.buf.accepted w
  match s.writer.writeTo w with
  | (writer, _, none) => { s.settle true with writer, output := s.output ++ taken }
  | (writer, _, some _) =>
    { s with writer, output := s.output ++ taken, pinned := s.pinned || !taken.isEmpty }

def close (s : Desk) : Desk := { s with writer := s.writer.close, pinned := true, closed := true }

@[simp] theorem pinned_wrote (clp : IrWriteApi) (s : Desk) (event : LogEvent) :
    (s.wrote ε clp event).pinned = s.pinned := by
  unfold wrote
  split <;> rfl

@[simp] theorem closed_wrote (clp : IrWriteApi) (s : Desk) (event : LogEvent) :
    (s.wrote ε clp event).closed = s.closed := by
  unfold wrote
  split <;> rfl

@[simp] theorem closed_flushed (s : Desk) (w : Sink ε) : (s.flushed w).closed = s.closed := by
  unfold flushed
  split <;> rfl

-- What the documentation of `WriteTo` asks for after an error: `Bytes`, then `Reset`.
def salvaged (s : Desk) : Desk :=
  { s.settle true with writer := s.writer.reset, output := s.output ++ s.writer.bytes }

def dropped (s : Desk) : Desk := { s.settle false with writer := s.writer.reset }

inductive Step (ε : Type) (clp : IrWriteApi) : Desk → Desk → Prop
  | write (s : Desk) (event : LogEvent) : Step ε clp s (s.wrote ε clp event)
  | writeTo (s : Desk) (w : Sink ε) : Step ε clp s (s.flushed w)
  | close (s : Desk) : s.closed = false → Step ε clp s s.close
  | salvage (s : Desk) : Step ε clp s s.salvaged
  | drop (s : Desk) : s.pinned = false → Step ε clp s s.dropped

end Desk

def keptItems (enc : Encoding) :
    EpochTimeMs → List (LogEvent × Bool) → List (GoString × EpochTimeMs)
  | _, [] => []
  | prev, (e, true) :: log =>
    (e.logMessage, timestampOrDelta enc prev e.timestamp) :: keptItems enc e.timestamp log
  | _, (e, false) :: log => keptItems enc e.timestamp log

-- The time that passed up to each dropped event is missing from every later timestamp.
def skewed : EpochTimeMs → EpochTimeMs → List (LogEvent × Bool) → List LogEventView
  | _, _, [] => []
  | lost, _, (e, true) :: log =>
    ⟨e.logMessage, e.timestamp - lost⟩ :: skewed lost e.timestamp log
  | lost, prev, (e, false) :: log => skewed (lost + (e.timestamp - prev)) e.timestamp log

def keptViews (log : List (LogEvent × Bool)) : List LogEventView :=
  (log.filter Prod.snd).map (fun entry => entry.1.view)

def readBack (enc : Encoding) (referenceTs : EpochTimeMs) (log : List (LogEvent × Bool)) :
    List LogEventView :=
  match enc with
  | .eightByte => keptViews log
  | .fourByte => skewed 0 referenceTs log

section items

variable {enc : Encoding} {prev : EpochTimeMs} {log : List (LogEvent × Bool)}
  {events : List LogEvent}

theorem keptItems_append (more : List (LogEvent × Bool)) :
    keptItems enc prev (log ++ more) = keptItems enc prev log ++
      keptItems enc (lastTimestamp prev (log.map Prod.fst)) more := by
  induction log generalizing prev with
  | nil => rfl
  | cons entry log ih =>
    obtain ⟨e, _ | _⟩ := entry
    · exact ih
    · exact congrArg _ ih

theorem keptItems_kept : keptItems enc prev (events.map (·, true)) = encoded enc prev events := by
  induction events generalizing prev with
  | nil => rfl
  | cons e es ih => exact congrArg _ ih

theorem keptItems_dropped : keptItems enc prev (events.map (·, false)) = [] := by
  induction events generalizing prev with
  | nil => rfl
  | cons e es ih => exact ih

theorem map_fst_settle (kept : Bool) : (events.map (·, kept)).map Prod.fst = events := by
  rw [List.map_map]
  exact List.map_id events

theorem length_keptItems : (keptItems enc prev log).length = (keptViews log).length := by
  induction log generalizing prev with
  | nil => rfl
  | cons entry log ih =>
    obtain ⟨e, _ | _⟩ := entry
    · exact ih
    · exact congrArg (· + 1) ih

theorem decoded_kept_eightByte (t : EpochTimeMs) :
    decoded .eightByte t (keptItems .eightByte prev log) = keptViews log := by
  induction log generalizing t prev with
  | nil => rfl
  | cons entry log ih =>
    obtain ⟨e, _ | _⟩ := entry
    · exact ih t
    · exact congrArg _ (ih _)

theorem decoded_kept_fourByte (lost : EpochTimeMs) :
    decoded .fourByte (prev - lost) (keptItems .fourByte prev log) = skewed lost prev log := by
  induction log generalizing prev lost with
  | nil => rfl
  | cons entry log ih =>
    obtain ⟨e, _ | _⟩ := entry
    · rw [keptItems, skewed, ← ih]
      congr 1
      grind
    · have hstamp : stamp .fourByte (prev - lost) (e.timestamp - prev) = e.timestamp - lost := by
        rw [stamp_fourByte]
        grind
      rw [keptItems, skewed, decoded, timestampOrDelta, hstamp, ih]

theorem decoded_keptItems {referenceTs : EpochTimeMs}
    (h : enc = .fourByte → prev = referenceTs) :
    decoded enc prev (keptItems enc prev log) = readBack enc referenceTs log := by
  cases enc with
  | eightByte => exact decoded_kept_eightByte prev
  | fourByte =>
    obtain rfl := h rfl
    rw [readBack, ← decoded_kept_fourByte, Int64.sub_zero]

theorem skewed_undropped : skewed 0 prev (events.map (·, true)) = events.map LogEvent.view := by
  induction events generalizing prev with
  | nil => rfl
  | cons e es ih =>
    simp only [List.map_cons, skewed, ih, Int64.sub_zero]
    rfl

theorem readBack_undropped {referenceTs : EpochTimeMs} (h : ∀ entry ∈ log, entry.2 = true) :
    readBack enc referenceTs log = log.map (fun entry => entry.1.view) := by
  have hlog : (log.map Prod.fst).map (·, true) = log := by
    rw [List.map_map]
    refine (List.map_congr_left ?_).trans (List.map_id log)
    exact fun entry he => Prod.ext rfl (h entry he).symm
  cases enc with
  | eightByte => rw [readBack, keptViews, List.filter_eq_self.mpr h]
  | fourByte =>
    rw [readBack, ← hlog, skewed_undropped]
    simp

end items

namespace Desk

def clock (enc : Encoding) (metadata : Metadata) (s : Desk) : EpochTimeMs :=
  lastTimestamp (initialTime enc metadata) (s.settled.map Prod.fst)

def endBytes (s : Desk) : List UInt8 := if s.closed then [0] else []

structure Ledger (clp : IrReadApi) (json : JsonApi ε) (enc : Encoding) (metadata : Metadata)
    (s : Desk) (pre : List UInt8) (kept buffered : List (List UInt8)) : Prop where
  preamble : PreambleBytes clp json enc metadata pre
  keeps : List.Forall₂ (EventBytes clp enc) kept
    (keptItems enc (initialTime enc metadata) s.settled)
  buffers : List.Forall₂ (EventBytes clp enc) buffered
    (encoded enc (s.clock enc metadata) s.pending)
  follows : s.writer.serializer.Follows enc (lastTimestamp (s.clock enc metadata) s.pending)
  shut : s.closed = true → s.writer.serializer.cptr = none
  bytes : s.output ++ s.writer.bytes = pre ++ kept.flatten ++ (buffered.flatten ++ s.endBytes)
  loose : s.pinned = false → s.writer.bytes = buffered.flatten ∧
    s.output = pre ++ kept.flatten ++ s.endBytes ∧ (s.closed = true → s.pending = [])

section steps

variable {clp : IrReadApi} {clpw : IrWriteApi} {json : JsonApi ε} {enc : Encoding}
  {metadata : Metadata} {s : Desk} {pre : List UInt8} {kept buffered : List (List UInt8)}

theorem clock_settle (b : Bool) (s : Desk) :
    (s.settle b).clock enc metadata = lastTimestamp (s.clock enc metadata) s.pending := by
  simp only [clock, settle, lastTimestamp, List.map_append, List.foldl_append, map_fst_settle]

-- A drained and a salvaged buffer leave the same desk.
theorem Ledger.handed (h : s.Ledger clp json enc metadata pre kept buffered) {writer : Writer}
    (hs : writer.serializer = s.writer.serializer) (hb : writer.bytes = []) :
    { s.settle true with writer, output := s.output ++ s.writer.bytes : Desk }.Ledger clp json enc
      metadata pre (kept ++ buffered) [] where
  preamble := h.preamble
  keeps := by
    rw [settle, keptItems_append, keptItems_kept]
    exact List.rel_append h.keeps h.buffers
  buffers := .nil
  follows := by
    have hf := h.follows
    rw [← hs, ← clock_settle true] at hf
    exact hf
  shut := by
    have hc := h.shut
    rwa [← hs] at hc
  bytes := by
    have hbytes := h.bytes
    simp only [hb, hbytes, List.append_nil, List.flatten_append, List.append_assoc,
      List.flatten_nil, List.nil_append]
    rfl
  loose := by
    intro _
    refine ⟨hb, ?_, fun _ => rfl⟩
    have hbytes := h.bytes
    simp only [hbytes, List.flatten_append, List.append_assoc]
    rfl

theorem Ledger.dropped (h : s.Ledger clp json enc metadata pre kept buffered)
    (hloose : s.pinned = false) :
    s.dropped.Ledger clp json enc metadata pre kept [] := by
  obtain ⟨_, hout, _⟩ := h.loose hloose
  have hend : s.output = pre ++ kept.flatten ++ s.dropped.endBytes := hout
  constructor
  · exact h.preamble
  · rw [Desk.dropped, settle, keptItems_append, keptItems_dropped, List.append_nil]
    exact h.keeps
  · exact .nil
  · have hf := h.follows
    rw [← clock_settle false] at hf
    exact hf
  · exact h.shut
  · rw [List.flatten_nil, List.nil_append, ← hend]
    exact List.append_nil _
  · exact fun _ => ⟨rfl, hend, fun _ => rfl⟩

theorem Ledger.close (h : s.Ledger clp json enc metadata pre kept buffered)
    (hopen : s.closed = false) :
    s.close.Ledger clp json enc metadata pre kept buffered := by
  constructor
  · exact h.preamble
  · exact h.keeps
  · exact h.buffers
  · exact h.follows.close
  · exact fun _ => Serializer.cptr_close _
  · have hbytes := h.bytes
    rw [endBytes, hopen, if_neg Bool.false_ne_true, List.append_nil] at hbytes
    show s.output ++ (s.writer.bytes ++ [0]) = _
    rw [← List.append_assoc, hbytes, List.append_assoc]
    rfl
  · exact fun hp => by cases hp

theorem Ledger.resisted (h : s.Ledger clp json enc metadata pre kept buffered) {w : Sink ε}
    {writer : Writer} (hs : writer.serializer = s.writer.serializer)
    (hb : s.writer.buf.accepted w ++ writer.bytes = s.writer.bytes) :
    { s with
      writer, output := s.output ++ s.writer.buf.accepted w,
      pinned := s.pinned || !(s.writer.buf.accepted w).isEmpty : Desk }.Ledger clp json enc
      metadata pre kept buffered := by
  constructor
  · exact h.preamble
  · exact h.keeps
  · exact h.buffers
  · exact hs ▸ h.follows
  · exact hs ▸ h.shut
  · have hbytes := h.bytes
    rw [← hb, ← List.append_assoc] at hbytes
    exact hbytes
  · intro hp
    obtain ⟨hpin, hnone⟩ := Bool.or_eq_false_iff.mp hp
    have hnil : s.writer.buf.accepted w = [] := by simpa using hnone
    obtain ⟨hbuf, hout, hpend⟩ := h.loose hpin
    rw [hnil, List.nil_append] at hb
    refine ⟨hb.trans hbuf, ?_, hpend⟩
    show s.output ++ s.writer.buf.accepted w = _
    rw [hnil, List.append_nil]
    exact hout

theorem Ledger.flushed (h : s.Ledger clp json enc metadata pre kept buffered) (w : Sink ε) :
    ∃ kept buffered, (s.flushed w).Ledger clp json enc metadata pre kept buffered := by
  have hc := ByteBuffer.writeTo_conserves s.writer.buf w
  have hd := ByteBuffer.writeTo_drained (b := s.writer.buf) (w := w)
  have hw := writeTo_eq s.writer w
  rw [Desk.flushed, hw]
  rcases hr : (s.writer.buf.writeTo w).2 with ⟨n, _ | err⟩
  · rw [hr] at hd
    rw [hd rfl, List.append_nil] at hc
    refine ⟨kept ++ buffered, [], ?_⟩
    rw [hc]
    exact h.handed rfl (hd rfl)
  · exact ⟨_, _, h.resisted rfl hc⟩

theorem Ledger.wrote (hcodec : Codec clp clpw json)
    (h : s.Ledger clp json enc metadata pre kept buffered) (event : LogEvent) :
    ∃ buffered, (s.wrote ε clpw event).Ledger clp json enc metadata pre kept buffered := by
  rcases write_cases (ε := ε) clpw s.writer event with
    ⟨serializer, err, hs, hw⟩ | ⟨serializer, irView, hs, hw⟩
  · refine ⟨buffered, ?_⟩
    rw [Desk.wrote, hw]
    refine ⟨h.preamble, h.keeps, h.buffers, serialize_failed h.follows hs, ?_, h.bytes, h.loose⟩
    intro hshut
    rw [serializeLogEvent_closed clpw (h.shut hshut)] at hs
    cases hs
    exact h.shut hshut
  · have hopen : s.closed = false := by
      by_contra hne
      rw [serializeLogEvent_closed clpw (h.shut (by simpa using hne))] at hs
      cases hs
    have hend : s.endBytes = [] := by rw [endBytes, hopen, if_neg Bool.false_ne_true]
    obtain ⟨hf, hview⟩ := serialize_event hcodec.carriesEvents h.follows hs
    refine ⟨buffered ++ [irView], ?_⟩
    rw [Desk.wrote, hw]
    constructor
    · exact h.preamble
    · exact h.keeps
    · rw [encoded_snoc]
      exact List.rel_append h.buffers (.cons hview .nil)
    · rw [lastTimestamp_snoc]
      exact hf
    · intro hshut
      rw [hopen] at hshut
      cases hshut
    · have hbytes := h.bytes
      rw [hend, List.append_nil] at hbytes
      show s.output ++ (s.writer.bytes ++ irView) = _ ++ (_ ++ s.endBytes)
      rw [← List.append_assoc, hbytes, hend]
      simp
    · intro hp
      obtain ⟨hbuf, hout, _⟩ := h.loose hp
      refine ⟨?_, hout, ?_⟩
      · show s.writer.bytes ++ irView = _
        rw [hbuf]
        simp
      · intro hshut
        rw [hopen] at hshut
        cases hshut

theorem Ledger.step (hcodec : Codec clp clpw json)
    (h : s.Ledger clp json enc metadata pre kept buffered) {s' : Desk} (hs : Step ε clpw s s') :
    ∃ kept buffered, s'.Ledger clp json enc metadata pre kept buffered := by
  cases hs with
  | write event => exact ⟨kept, h.wrote hcodec event⟩
  | writeTo w => exact h.flushed w
  | close hopen => exact ⟨kept, buffered, h.close hopen⟩
  | salvage => exact ⟨kept ++ buffered, [], h.handed rfl rfl⟩
  | drop hloose => exact ⟨kept, [], h.dropped hloose⟩

theorem Ledger.run (hcodec : Codec clp clpw json)
    (h : s.Ledger clp json enc metadata pre kept buffered) {s' : Desk}
    (hs : Relation.ReflTransGen (Step ε clpw) s s') :
    ∃ kept buffered, s'.Ledger clp json enc metadata pre kept buffered := by
  induction hs with
  | refl => exact ⟨kept, buffered, h⟩
  | tail _ hstep ih =>
    obtain ⟨kept, buffered, h⟩ := ih
    exact h.step hcodec hstep

theorem Ledger.start {writer : Writer} (hpre : PreambleBytes clp json enc metadata writer.bytes)
    (hf : writer.serializer.Follows enc (initialTime enc metadata)) :
    (start writer).Ledger clp json enc metadata writer.bytes [] [] := by
  constructor
  · exact hpre
  · exact .nil
  · exact .nil
  · exact hf
  · exact fun hshut => by cases hshut
  · simp [Desk.start, endBytes]
  · exact fun hp => by cases hp

theorem Ledger.stream (heof : EofByte clp)
    (h : s.Ledger clp json enc metadata pre kept buffered) (hclosed : s.closed = true) :
    IrStream clp json enc metadata (keptItems enc (initialTime enc metadata) s.log)
      (s.output ++ s.writer.bytes) := by
  refine ⟨heof, pre, kept ++ buffered, ?_, h.preamble, ?_⟩
  · rw [h.bytes, endBytes, if_pos hclosed]
    simp
  · rw [log, keptItems_append, keptItems_kept]
    exact List.rel_append h.keeps h.buffers

end steps

end Desk

theorem initialTime_fourByte {clp : IrWriteApi} {size : ℕ} {timeZoneId : GoString}
    {now t : EpochTimeMs} {writer : Writer}
    (hnew : newWriterSize (ε := ε) clp .fourByte size timeZoneId now = .ok writer)
    (hf : writer.serializer.Follows .fourByte t) : t = now := by
  obtain ⟨c, hs, _⟩ := newWriterSize_fourByte hnew
  rw [hs] at hf
  exact hf.2.symm

theorem IrStream.reads {clp : IrReadApi} {json : JsonApi ε} {enc : Encoding} {metadata : Metadata}
    {is : List (GoString × EpochTimeMs)} {b : List UInt8}
    (hstream : IrStream clp json enc metadata is b) {io : IoReader σ ε} {source : σ} {size : ℕ}
    (hsize : 0 < size) (hs : io.Delivers IoReader.NoError source b) (k : ℕ) :
    ∃ fuel rd rd', newReaderSize clp json io source size fuel = some (.ok rd) ∧
      execAll clp io fuel rd (List.replicate (is.length + k) .read) =
        some (rd', (decoded enc (initialTime enc metadata) is).map (fun e => .ok (e, none)) ++
          List.replicate k (.error (.ir .endOfIr))) := by
  obtain ⟨pos, hf⟩ := hstream.facts
  obtain ⟨fuel, rd, hopen, hh⟩ := hf.opens hsize hs
  obtain ⟨n, rd', hops⟩ := read_items (d := newDeserializer enc metadata ⟨0⟩) is
    (by simpa using hf.regular) (by simpa using hf.items) (by simpa using hf.tail) hh k
  rw [encoding_newDeserializer] at hops
  exact ⟨fuel + n, rd, rd', newReaderSize_mono hopen (by omega), execAll_mono hops (by omega)⟩

theorem salvaged_stream_reads {clp : IrReadApi} {clpw : IrWriteApi} {json : JsonApi ε}
    (h : Codec clp clpw json) {enc : Encoding} {writerSize : ℕ} {timeZoneId : GoString}
    {now : EpochTimeMs} {writer : Writer}
    (hnew : newWriterSize (ε := ε) clpw enc writerSize timeZoneId now = .ok writer) {s : Desk}
    (hrun : Relation.ReflTransGen (Desk.Step ε clpw) (Desk.start writer) s)
    (hclosed : s.closed = true) {io : IoReader σ ε} {source : σ} {size : ℕ} (hsize : 0 < size)
    (hs : io.Delivers IoReader.NoError source (s.output ++ s.writer.bytes)) (k : ℕ) :
    (∃ fuel rd rd', newReaderSize clp json io source size fuel = some (.ok rd) ∧
      execAll clp io fuel rd (List.replicate ((keptViews s.log).length + k) .read) =
        some (rd', (readBack enc now s.log).map (fun e => .ok (e, none)) ++
          List.replicate k (.error (.ir .endOfIr)))) ∧
    ((∀ entry ∈ s.log, entry.2 = true) →
      readBack enc now s.log = s.log.map (fun entry => entry.1.view)) := by
  obtain ⟨metadata, hpre, hf⟩ := newWriterSize_stream h hnew
  obtain ⟨kept, buffered, hledger⟩ := (Desk.Ledger.start hpre hf).run h hrun
  have hreads := (hledger.stream h.eof hclosed).reads hsize hs k
  have hnow : enc = .fourByte → initialTime enc metadata = now := by
    rintro rfl
    exact initialTime_fourByte hnew hf
  rw [decoded_keptItems hnow, length_keptItems] at hreads
  exact ⟨hreads, readBack_undropped⟩

namespace Desk

open SampleCodec

def sampleEnd (writer : Writer) : Desk :=
  ((((((start writer).wrote Unit writeApi ⟨ascii "hello", 1005⟩).flushed
    (.failAfter 3 ())).salvaged.wrote Unit writeApi ⟨ascii "lost", 1100⟩).dropped).wrote Unit
      writeApi ⟨ascii "bye", 1110⟩).close

theorem sampleEnd_log : ∀ {writer : Writer},
    newWriterSize (ε := Unit) writeApi .fourByte 16 (ascii "UTC") 1000 = .ok writer →
      (sampleEnd writer).log = [(⟨ascii "hello", 1005⟩, true), (⟨ascii "lost", 1100⟩, false),
        (⟨ascii "bye", 1110⟩, true)] := by
  have hlog : (newWriterSize (ε := Unit) writeApi .fourByte 16 (ascii "UTC") 1000).toOption.map
      (fun writer => (sampleEnd writer).log) = some [(⟨ascii "hello", 1005⟩, true),
        (⟨ascii "lost", 1100⟩, false), (⟨ascii "bye", 1110⟩, true)] := by
    decide +kernel
  intro writer hnew
  rw [hnew] at hlog
  exact Option.some.inj hlog

end Desk

open SampleCodec IoReader in
theorem dropped_event_skews : ∃ writer,
    newWriterSize (ε := Unit) writeApi .fourByte 16 (ascii "UTC") 1000 = .ok writer ∧
    ∃ fuel rd rd', newReaderSize readApi jsonApi source
        (bytewise ((Desk.sampleEnd writer).output ++ (Desk.sampleEnd writer).writer.bytes)) 1
          fuel = some (.ok rd) ∧
      execAll readApi source fuel rd (List.replicate 3 .read) =
        some (rd', [.ok (⟨ascii "hello", 1005⟩, none), .ok (⟨ascii "bye", 1015⟩, none),
          .error (.ir .endOfIr)]) := by
  obtain ⟨writer, hnew⟩ := sample_writer
  have hrun : Relation.ReflTransGen (Desk.Step Unit writeApi) (Desk.start writer)
      (Desk.sampleEnd writer) := by
    refine .head (.write _ ⟨ascii "hello", 1005⟩) ?_
    refine .head (.writeTo _ (.failAfter 3 ())) ?_
    refine .head (.salvage _) ?_
    refine .head (.write _ ⟨ascii "lost", 1100⟩) ?_
    refine .head (.drop _ (Desk.pinned_wrote _ _ _)) ?_
    refine .head (.write _ ⟨ascii "bye", 1110⟩) ?_
    refine .single (.close _ ?_)
    simp [Desk.salvaged, Desk.dropped, Desk.settle, Desk.start]
  obtain ⟨hreads, _⟩ := salvaged_stream_reads codec hnew hrun rfl Nat.one_pos
    (bytewise_delivers _ _) 1
  rw [Desk.sampleEnd_log hnew] at hreads
  exact ⟨writer, hnew, hreads⟩

end ClpFfiGo
