import ClpFfiGo.WriterStream
import ClpFfiGo.Termination
import ClpFfiGo.SampleCodec

namespace ClpFfiGo

variable {σ ε : Type}

def Writer.writeAll (ε : Type) (clp : IrWriteApi) : Writer → List LogEvent → Option Writer
  | writer, [] => some writer
  | writer, event :: events => match writer.write (ε := ε) clp event with
    | (writer, _, none) => Writer.writeAll ε clp writer events
    | (_, _, some _) => none

def encoded (enc : Encoding) : EpochTimeMs → List LogEvent → List (GoString × EpochTimeMs)
  | _, [] => []
  | prev, e :: es =>
    (e.logMessage, timestampOrDelta enc prev e.timestamp) :: encoded enc e.timestamp es

def LogEvent.view (e : LogEvent) : LogEventView := ⟨e.logMessage, e.timestamp⟩

theorem stamp_timestampOrDelta (enc : Encoding) (prev timestamp : EpochTimeMs) :
    stamp enc prev (timestampOrDelta enc prev timestamp) = timestamp := by
  cases enc with
  | eightByte => rfl
  | fourByte =>
    rw [timestampOrDelta, stamp_fourByte, Int64.add_comm]
    exact Int64.sub_add_cancel timestamp prev

theorem decoded_encoded (enc : Encoding) (t : EpochTimeMs) (events : List LogEvent) :
    decoded enc t (encoded enc t events) = events.map LogEvent.view := by
  induction events generalizing t with
  | nil => rfl
  | cons e es ih =>
    rw [encoded, decoded, stamp_timestampOrDelta, ih]
    rfl

section writing

variable {clp : IrReadApi} {clpw : IrWriteApi} {json : JsonApi ε} {enc : Encoding}

def Serializer.Follows (enc : Encoding) (prev : EpochTimeMs) : Serializer → Prop
  | .eightByte _ => enc = .eightByte
  | .fourByte _ prevTimestamp => enc = .fourByte ∧ prevTimestamp = prev

theorem native_event (h : CarriesEvents clp clpw enc) {msg : GoString} {ts : EpochTimeMs}
    {cptr cptr' : Option Native.Serializer} {irView : BufView}
    (hn : Native.serializeLogEvent clpw enc msg ts cptr = (cptr', .ok irView)) :
    EventBytes clp enc irView (msg, ts) := by
  obtain ⟨logtype, logtype', hw⟩ := Native.serializeLogEvent_ok hn
  exact h hw

theorem serialize_event (h : CarriesEvents clp clpw enc) {serializer serializer' : Serializer}
    {prev : EpochTimeMs} {event : LogEvent} {irView : BufView}
    (hf : serializer.Follows enc prev)
    (hs : serializeLogEvent (ε := ε) clpw serializer event = (serializer', .ok irView)) :
    serializer'.Follows enc event.timestamp ∧
      EventBytes clp enc irView (event.logMessage, timestampOrDelta enc prev event.timestamp) := by
  cases serializer with
  | eightByte c =>
    obtain rfl : enc = .eightByte := hf
    simp only [serializeLogEvent] at hs
    split at hs
    · cases hs
    · rename_i hn
      cases hs
      exact ⟨rfl, native_event h hn⟩
  | fourByte c prevTimestamp =>
    obtain ⟨rfl, rfl⟩ : enc = .fourByte ∧ prevTimestamp = prev := hf
    simp only [serializeLogEvent] at hs
    split at hs
    · cases hs
    · rename_i hn
      cases hs
      exact ⟨⟨rfl, rfl⟩, native_event h hn⟩

theorem writeAll_bytes (h : Codec clp clpw json) {writer writer' : Writer} {prev : EpochTimeMs}
    {events : List LogEvent} (hf : writer.serializer.Follows enc prev)
    (hw : Writer.writeAll ε clpw writer events = some writer') :
    ∃ ps, writer'.bytes = writer.bytes ++ ps.flatten ∧
      List.Forall₂ (EventBytes clp enc) ps (encoded enc prev events) := by
  induction events generalizing writer prev with
  | nil =>
    cases hw
    exact ⟨[], by simp, .nil⟩
  | cons event events ih =>
    rw [Writer.writeAll] at hw
    rcases write_cases (ε := ε) clpw writer event with
      ⟨serializer, err, _, hwrite⟩ | ⟨serializer, irView, hs, hwrite⟩
    · rw [hwrite] at hw
      cases hw
    · rw [hwrite] at hw
      obtain ⟨hf', hp⟩ := serialize_event h.carriesEvents hf hs
      obtain ⟨ps, hb, hps⟩ := ih hf' hw
      refine ⟨irView :: ps, ?_, .cons hp hps⟩
      rw [hb]
      simp [Writer.bytes]

theorem refTs_formatInt {metadata : Metadata} {ts : EpochTimeMs}
    (h : metadata metadataReferenceTimestampKey = some (.str (formatInt ts))) :
    metadata.refTs = ts := by
  simp [Metadata.refTs, h, parseInt_formatInt]

theorem newWriterSize_stream (h : Codec clp clpw json) {size : ℕ} {timeZoneId : GoString}
    {now : EpochTimeMs} {writer : Writer}
    (hnew : newWriterSize (ε := ε) clpw enc size timeZoneId now = .ok writer) :
    ∃ metadata, PreambleBytes clp json enc metadata writer.bytes ∧
      writer.serializer.Follows enc (initialTime enc metadata) := by
  cases enc with
  | eightByte =>
    obtain ⟨c, hs, hw⟩ := newWriterSize_eightByte hnew
    obtain ⟨metadata, hp⟩ := h.eightBytePreamble hw
    refine ⟨metadata, hp, ?_⟩
    rw [hs]
    rfl
  | fourByte =>
    obtain ⟨c, hs, hw⟩ := newWriterSize_fourByte hnew
    obtain ⟨metadata, href, hp⟩ := h.fourBytePreamble hw
    refine ⟨metadata, hp, ?_⟩
    rw [hs]
    refine ⟨rfl, ?_⟩
    exact (refTs_formatInt href).symm

theorem writer_stream (h : Codec clp clpw json) {size : ℕ} {timeZoneId : GoString}
    {now : EpochTimeMs} {writer writer' : Writer} {events : List LogEvent} {sink : Sink ε}
    (hnew : newWriterSize (ε := ε) clpw enc size timeZoneId now = .ok writer)
    (hw : Writer.writeAll ε clpw writer events = some writer')
    (hsink : ∀ p, sink.write p = (p.length, none)) :
    ∃ metadata, IrStream clp json enc metadata (encoded enc (initialTime enc metadata) events)
      (WriterOp.accepted writer' (.closeTo sink)) := by
  obtain ⟨metadata, hpre, hf⟩ := newWriterSize_stream h hnew
  obtain ⟨ps, hb, hps⟩ := writeAll_bytes h hf hw
  refine ⟨metadata, h.eof, writer.bytes, ps, ?_, hpre, hps⟩
  rw [WriterOp.accepted, (ByteBuffer.writeTo_all hsink).1]
  show writer'.bytes ++ [0] = _
  rw [hb, List.append_assoc]

end writing

section reading

variable {clp : IrReadApi} {io : IoReader σ ε} {d : Deserializer}

theorem read_end {t : EpochTimeMs} {b : List UInt8} {rd : Reader σ}
    (hs : (itemDecoder clp d.encoding).Settled b)
    (heof : (itemDecoder clp d.encoding).dec b = .error .eof)
    (h : rd.Holds (io.Delivers IoReader.NoError) d ⟨t, b⟩) (k : ℕ) :
    ∃ fuel rd', execAll clp io fuel rd (List.replicate k .read) =
      some (rd', List.replicate k (.error (.ir .endOfIr))) := by
  induction k generalizing rd with
  | zero => exact ⟨0, rd, rfl⟩
  | succ k ih =>
    have hne : (itemDecoder clp d.encoding).dec b ≠ .error .incompleteIr := by simp [heof]
    obtain ⟨fuel, rd₁, c₁, res, hread, hc, h₁⟩ := read_run (c := ⟨t, b⟩) hs hne h
    simp only [Cursor.read, heof] at hc
    obtain ⟨rfl, rfl⟩ := Prod.mk.inj (Option.some.inj hc)
    obtain ⟨n, rd', hrest⟩ := ih h₁
    have hop : ReaderOp.exec clp io fuel rd .read =
        some (rd₁, .error (.ir .endOfIr)) := by
      rw [ReaderOp.exec, hread]
      rfl
    exact ⟨fuel + n, rd', execAll_cons (exec_mono hop (by omega)) (execAll_mono hrest (by omega))⟩

theorem read_items (is : List (GoString × EpochTimeMs)) {t : EpochTimeMs} {b : List UInt8}
    {rd : Reader σ} (hr : (itemDecoder clp d.encoding).Regular b)
    (hitems : ((itemDecoder clp d.encoding).parse b).1.map Prod.fst = is)
    (htail : ((itemDecoder clp d.encoding).parse b).2 = .eof)
    (h : rd.Holds (io.Delivers IoReader.NoError) d ⟨t, b⟩) (k : ℕ) :
    ∃ fuel rd', execAll clp io fuel rd (List.replicate (is.length + k) .read) =
      some (rd', (decoded d.encoding t is).map (fun e => .ok (e, none)) ++
        List.replicate k (.error (.ir .endOfIr))) := by
  induction is generalizing t b rd with
  | nil =>
    have hdec := ItemDecoder.dec_of_nil (List.map_eq_nil_iff.mp hitems)
    rw [htail] at hdec
    simpa [decoded] using read_end hr.settled hdec h k
  | cons i is ih =>
    obtain ⟨⟨⟨m, v⟩, n⟩, items, hp, rfl, hrest⟩ := List.map_eq_cons_iff.mp hitems
    obtain ⟨hdec, hparse⟩ := ItemDecoder.dec_of_cons hp
    have hne : (itemDecoder clp d.encoding).dec b ≠ .error .incompleteIr := by simp [hdec]
    obtain ⟨fuel, rd₁, c₁, res, hread, hc, h₁⟩ := read_run (c := ⟨t, b⟩) hr.settled hne h
    rw [Cursor.read_of_ok (c := ⟨t, b⟩) hdec] at hc
    obtain ⟨rfl, rfl⟩ := Prod.mk.inj (Option.some.inj hc)
    obtain ⟨j, rd', hops⟩ := ih (hr.drop hdec) (by rw [hparse]; exact hrest)
      (by rw [hparse]; exact htail) h₁
    have hop : ReaderOp.exec clp io fuel rd .read =
        some (rd₁, .ok (⟨m, stamp d.encoding t v⟩, none)) := by
      rw [ReaderOp.exec, hread]
      rfl
    refine ⟨fuel + j, rd', ?_⟩
    rw [List.length_cons, Nat.add_right_comm, List.replicate_succ]
    exact execAll_cons (exec_mono hop (by omega)) (execAll_mono hops (by omega))

end reading

end ClpFfiGo
